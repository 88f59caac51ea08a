import ScriptMachine.Proofs.Table.History

/-!
# Probes stop

A probe has no bound of its own: it goes on around the slots until it meets what it is looking for
or an empty slot. It stops because a quarter of the slots is never used, whatever was done to the
table: what a table counts as used are at least its live entries and its tombstones, and it grows
before that count passes three quarters of its slots. The count is exact as long as a text always
comes with the same hash; two entries for one text are counted twice when growth puts them into
one slot.
-/

namespace ScriptMachine

/-- Whether a slot is a deleted entry. -/
def Entry.isTombstone : Entry → Bool
  | .tombstone => true
  | _ => false

namespace Table

variable {t : Table} {key : Key} {value : Value} {entries : Array Entry}

/-- The number of tombstones. -/
def tombstones (t : Table) : Nat := t.entries.countP Entry.isTombstone

/-! ### Probes without a bound -/

/-- A probe for `key` that goes on from slot `i` until it may stop, with the first tombstone
`passed` on the way: it looks at `n` slots and ends with slot `j`. -/
inductive Probes (entries : Array Entry) (key : Key) : Option Nat → Nat → Nat → Nat → Prop
  | empty {passed : Option Nat} {i : Nat} (h : entries[i]? = some .empty) :
      Probes entries key passed i 1 (passed.getD i)
  | found {passed : Option Nat} {i : Nat} {k : Key} {v : Value}
      (h : entries[i]? = some (.live k v)) (hk : k.string = key.string) :
      Probes entries key passed i 1 i
  | tombstone {passed : Option Nat} {i n j : Nat} (h : entries[i]? = some .tombstone)
      (hrest : Probes entries key (some (passed.getD i)) (nextSlot entries.size i) n j) :
      Probes entries key passed i (n + 1) j
  | other {passed : Option Nat} {i n j : Nat} {k : Key} {v : Value}
      (h : entries[i]? = some (.live k v)) (hk : k.string ≠ key.string)
      (hrest : Probes entries key passed (nextSlot entries.size i) n j) :
      Probes entries key passed i (n + 1) j

/-- A probe for a wanted text with a given hash that goes on from slot `i` until it may stop: it
looks at `n` slots. -/
inductive ProbesText (entries : Array Entry) (hash : UInt32) (wanted : Handle → Bool) :
    Nat → Nat → Option Handle → Prop
  | empty {i : Nat} (h : entries[i]? = some .empty) : ProbesText entries hash wanted i 1 none
  | found {i : Nat} {k : Key} {v : Value} (h : entries[i]? = some (.live k v))
      (hk : k.hash = hash ∧ wanted k.string) :
      ProbesText entries hash wanted i 1 (some k.string)
  | tombstone {i n : Nat} {r : Option Handle} (h : entries[i]? = some .tombstone)
      (hrest : ProbesText entries hash wanted (nextSlot entries.size i) n r) :
      ProbesText entries hash wanted i (n + 1) r
  | other {i n : Nat} {r : Option Handle} {k : Key} {v : Value}
      (h : entries[i]? = some (.live k v)) (hk : ¬ (k.hash = hash ∧ wanted k.string))
      (hrest : ProbesText entries hash wanted (nextSlot entries.size i) n r) :
      ProbesText entries hash wanted i (n + 1) r

/-- With an empty slot before it, a probe stops there or earlier, as it does without a bound. -/
theorem probe_stops_within (key : Key) (home : Nat) (hn : 0 < entries.size) (fuel s : Nat)
    (passed : Option Nat) (hpassed : ∀ p, passed = some p → p < entries.size)
    (hempty : ∃ e, s ≤ e ∧ e < s + fuel ∧ entries[walk entries home e]? = some .empty) :
    ∃ n ≤ fuel, ∃ j < entries.size, Probes entries key passed (walk entries home s) n j ∧
      probe entries key fuel (walk entries home s) passed = some j := by
  induction fuel generalizing s passed with
  | zero =>
    obtain ⟨e, hse, hes, -⟩ := hempty
    omega
  | succ fuel ih =>
    have hlt : walk entries home s < entries.size := Nat.mod_lt _ hn
    have hget : entries[walk entries home s]? = some entries[walk entries home s] :=
      Array.getElem?_eq_getElem hlt
    -- past a slot that is not empty the empty slot is still ahead
    have hahead (hne : entries[walk entries home s]? ≠ some .empty) :
        ∃ e, s + 1 ≤ e ∧ e < s + 1 + fuel ∧ entries[walk entries home e]? = some .empty := by
      obtain ⟨e, hse, hes, he⟩ := hempty
      rcases Nat.lt_or_eq_of_le hse with h | rfl
      · exact ⟨e, h, by omega, he⟩
      · exact absurd he hne
    have hgetD : passed.getD (walk entries home s) < entries.size := by
      cases hp : passed with
      | none => exact hlt
      | some p => exact hpassed p hp
    rw [probe, hget]
    cases hentry : entries[walk entries home s] with
    | empty =>
      rw [hentry] at hget
      exact ⟨1, by omega, _, hgetD, .empty hget, rfl⟩
    | tombstone =>
      rw [hentry] at hget
      obtain ⟨n, hle, j, hj, hprobes, hprobe⟩ := ih (s + 1) (some (passed.getD _))
        (fun p hp => Option.some.inj hp ▸ hgetD) (hahead (by simp [hget]))
      rw [← nextSlot_walk hn] at hprobes hprobe
      exact ⟨n + 1, by omega, j, hj, .tombstone hget hprobes, hprobe⟩
    | live existing w =>
      rw [hentry] at hget
      by_cases heq : existing.string = key.string
      · exact ⟨1, by omega, _, hlt, .found hget heq, if_pos heq⟩
      · obtain ⟨n, hle, j, hj, hprobes, hprobe⟩ := ih (s + 1) passed hpassed
          (hahead (by simp [hget]))
        rw [← nextSlot_walk hn] at hprobes hprobe
        exact ⟨n + 1, by omega, j, hj, .other hget heq hprobes, (if_neg heq).trans hprobe⟩

/-- With an empty slot before it, a probe by content stops there or earlier, as it does without a
bound. -/
theorem probeText_stops_within (hash : UInt32) (wanted : Handle → Bool) (home : Nat)
    (hn : 0 < entries.size) (fuel s : Nat)
    (hempty : ∃ e, s ≤ e ∧ e < s + fuel ∧ entries[walk entries home e]? = some .empty) :
    ∃ n ≤ fuel, ProbesText entries hash wanted (walk entries home s) n
      (probeText entries hash wanted fuel (walk entries home s)) := by
  induction fuel generalizing s with
  | zero =>
    obtain ⟨e, hse, hes, -⟩ := hempty
    omega
  | succ fuel ih =>
    have hlt : walk entries home s < entries.size := Nat.mod_lt _ hn
    have hget : entries[walk entries home s]? = some entries[walk entries home s] :=
      Array.getElem?_eq_getElem hlt
    have hgo (hne : entries[walk entries home s]? ≠ some .empty) : ∃ n ≤ fuel,
        ProbesText entries hash wanted (nextSlot entries.size (walk entries home s)) n
          (probeText entries hash wanted fuel (nextSlot entries.size (walk entries home s))) := by
      rw [nextSlot_walk hn]
      refine ih (s + 1) ?_
      obtain ⟨e, hse, hes, he⟩ := hempty
      rcases Nat.lt_or_eq_of_le hse with h | rfl
      · exact ⟨e, h, by omega, he⟩
      · exact absurd he hne
    rw [probeText, hget]
    cases hentry : entries[walk entries home s] with
    | empty =>
      rw [hentry] at hget
      exact ⟨1, by omega, .empty hget⟩
    | tombstone =>
      rw [hentry] at hget
      obtain ⟨n, hle, hprobes⟩ := hgo (by simp [hget])
      exact ⟨n + 1, by omega, .tombstone hget hprobes⟩
    | live existing w =>
      rw [hentry] at hget
      simp only [Bool.and_eq_true, decide_eq_true_eq]
      split
      · next hhit => exact ⟨1, by omega, .found hget hhit⟩
      · next hmiss =>
        obtain ⟨n, hle, hprobes⟩ := hgo (by simp [hget])
        exact ⟨n + 1, by omega, .other hget hmiss hprobes⟩

/-! ### Room -/

/-- A table that counts at least its occupied slots as used, and at most three quarters of all. -/
structure Roomy (t : Table) : Prop where
  capacity : t.capacity = 0 ∨ ∃ n, t.capacity = 2 ^ (n + 3)
  used : t.entries.countP Entry.occupied ≤ t.used
  load : t.used * 4 ≤ t.capacity * 3

/-- A table with slots has an empty one. -/
theorem Roomy.empty_mem (h : t.Roomy) (hn : 0 < t.capacity) : Entry.empty ∈ t.entries := by
  have hload := h.load
  have hused := h.used
  refine Table.empty_mem ?_
  unfold Table.capacity at hn hload
  omega

/-- The empty table has room. -/
theorem roomy_empty : Roomy Table.empty := ⟨.inl rfl, Nat.le_refl _, Nat.le_refl _⟩

/-- Writing a slot occupies at most one more. -/
theorem countP_set_le (entries : Array Entry) (i : Nat) (e : Entry) :
    (entries.setIfInBounds i e).countP Entry.occupied ≤ entries.countP Entry.occupied + 1 := by
  unfold Array.setIfInBounds
  split
  · next hi =>
    have hone : (if e.occupied = true then 1 else 0) ≤ 1 := by split <;> omega
    rw [Array.countP_set]
    omega
  · omega

/-- Placing an entry counts what it occupies. -/
theorem used_place (key : Key) (value : Value)
    (hused : t.entries.countP Entry.occupied ≤ t.used) :
    (t.place key value).entries.countP Entry.occupied ≤ (t.place key value).used ∧
      (t.place key value).used ≤ t.used + 1 := by
  unfold place
  split
  · exact ⟨hused, by omega⟩
  · next i _ =>
    have := countP_set_le t.entries i (.live key value)
    exact ⟨by dsimp only; omega, Nat.le_refl _⟩

/-- What growth does with a slot of the table that grows. -/
def regrow (grown : Table) : Entry → Table
  | .live key value => grown.place key value
  | _ => grown

/-- A table of another size takes its entries one after the other. -/
theorem resize_eq (t : Table) (capacity : Nat) :
    t.resize capacity = t.entries.toList.foldl regrow ⟨0, Array.replicate capacity .empty⟩ := by
  rw [Array.foldl_toList]
  rfl

/-- The count of used slots covers those that are, by induction on the entries. -/
theorem used_regrow (rest : List Entry) (hused : t.entries.countP Entry.occupied ≤ t.used) :
    (rest.foldl regrow t).entries.countP Entry.occupied ≤ (rest.foldl regrow t).used ∧
      (rest.foldl regrow t).used ≤ t.used + rest.countP Entry.occupied := by
  induction rest generalizing t with
  | nil => exact ⟨hused, Nat.le_refl _⟩
  | cons e rest ih =>
    rw [List.foldl_cons, List.countP_cons]
    have hskip (heq : regrow t e = t) : (rest.foldl regrow (regrow t e)).entries.countP
        Entry.occupied ≤ (rest.foldl regrow (regrow t e)).used ∧
        (rest.foldl regrow (regrow t e)).used ≤ t.used + (rest.countP Entry.occupied +
          if e.occupied = true then 1 else 0) := by
      rw [heq]
      exact ⟨(ih hused).1, by have := (ih hused).2; omega⟩
    cases e with
    | empty => exact hskip rfl
    | tombstone => exact hskip rfl
    | live k v =>
      obtain ⟨hplaced, hone⟩ := used_place k v hused
      obtain ⟨hcount, hle⟩ := ih hplaced
      refine ⟨hcount, ?_⟩
      rw [show (Entry.live k v).occupied = true from rfl, if_pos rfl]
      exact Nat.le_trans hle (by omega)

/-- Growth counts what it occupies, at most the slots that were occupied. -/
theorem used_resize (t : Table) (capacity : Nat) :
    (t.resize capacity).entries.countP Entry.occupied ≤ (t.resize capacity).used ∧
      (t.resize capacity).used ≤ t.entries.countP Entry.occupied := by
  have hstart := used_regrow (t := ⟨0, Array.replicate capacity .empty⟩) t.entries.toList
    (by simp [Array.countP_replicate, Entry.occupied])
  rw [← resize_eq, Array.countP_toList, Nat.zero_add] at hstart
  exact hstart

/-- Making room leaves room for one more entry. -/
theorem Roomy.reserve (h : t.Roomy) :
    t.reserve.Roomy ∧ (t.reserve.used + 1) * 4 ≤ t.reserve.capacity * 3 := by
  have hload := h.load
  unfold Table.reserve
  split
  · next hfull =>
    obtain ⟨hused, hle⟩ := used_resize t (max (t.entries.size * 2) 8)
    have hused' := h.used
    have hcap : max (t.entries.size * 2) 8 = 0 ∨ ∃ n, max (t.entries.size * 2) 8 = 2 ^ (n + 3) := by
      rcases h.capacity with h0 | ⟨n, hn⟩
      · exact .inr ⟨0, by simp [Table.capacity] at h0; simp [h0]⟩
      · refine .inr ⟨n + 1, ?_⟩
        have hpos : 1 ≤ 2 ^ n := Nat.one_le_two_pow
        unfold Table.capacity at hn
        rw [hn, Nat.pow_succ 2 (n + 3), Nat.max_eq_left]
        rw [Nat.pow_succ, Nat.pow_succ, Nat.pow_succ]
        omega
    have hroom : (t.used + 1) * 4 ≤ max (t.entries.size * 2) 8 * 3 := by
      unfold Table.capacity at hload
      rcases h.capacity with h0 | ⟨n, hn⟩
      · unfold Table.capacity at h0
        omega
      · have hpos : 1 ≤ 2 ^ n := Nat.one_le_two_pow
        unfold Table.capacity at hn
        rw [Nat.pow_succ, Nat.pow_succ, Nat.pow_succ] at hn
        omega
    refine ⟨⟨capacity_resize _ ▸ hcap, hused, ?_⟩, ?_⟩ <;> rw [capacity_resize] <;> omega
  · next hroom =>
    unfold Table.capacity at hload ⊢
    exact ⟨h, by omega⟩

/-- An entry that takes a slot is counted unless the slot was occupied. -/
theorem Roomy.insert (h : t.Roomy) (key : Key) (value : Value) : (t.insert key value).2.Roomy := by
  obtain ⟨hr, hroom⟩ := h.reserve
  have hcapacity (used i : Nat) :
      Table.capacity ⟨used, t.reserve.entries.setIfInBounds i (.live key value)⟩ =
        t.reserve.capacity := Array.size_setIfInBounds
  have hmore (i : Nat) :
      Roomy ⟨t.reserve.used + 1, t.reserve.entries.setIfInBounds i (.live key value)⟩ := by
    have hcount := countP_set_le t.reserve.entries i (.live key value)
    have hused := hr.used
    exact ⟨hcapacity _ i ▸ hr.capacity, by dsimp only; omega, hcapacity _ i ▸ hroom⟩
  have hsame {i : Nat} {old : Entry} (hold : t.reserve.entries[i]? = some old)
      (ho : old.occupied = true) :
      Roomy ⟨t.reserve.used, t.reserve.entries.setIfInBounds i (.live key value)⟩ := by
    have hcount := countP_set (e := .live key value) hold rfl
    rw [ho, if_pos rfl, Nat.add_zero] at hcount
    exact ⟨hcapacity _ i ▸ hr.capacity, hcount ▸ hr.used, hcapacity _ i ▸ hr.load⟩
  unfold Table.insert
  dsimp only
  split
  · exact hr
  · next i _ =>
    split
    · next hold => exact hsame hold rfl
    · next hold => exact hsame hold rfl
    · exact hmore i

/-- A removed entry leaves a tombstone, which is counted like it. -/
theorem Roomy.erase (h : t.Roomy) (key : Key) : (t.erase key).2.Roomy := by
  unfold Table.erase
  split
  · exact h
  · split
    · exact h
    · next i _ =>
      split
      · next hold =>
        have hcount := countP_set (e := .tombstone) hold rfl
        rw [show (Entry.live _ _).occupied = true from rfl, if_pos rfl, Nat.add_zero] at hcount
        have hcapacity : Table.capacity ⟨t.used, t.entries.setIfInBounds i .tombstone⟩ =
            t.capacity := Array.size_setIfInBounds
        exact ⟨hcapacity ▸ h.capacity, hcount ▸ h.used, hcapacity ▸ h.load⟩
      · exact h

/-- Dropped entries leave tombstones. -/
theorem Roomy.prune (h : t.Roomy) (keep : Handle → Bool) : (t.prune keep).2.Roomy := by
  have hcapacity : (t.prune keep).2.capacity = t.capacity := capacity_prune
  refine ⟨hcapacity ▸ h.capacity, ?_, hcapacity ▸ h.load⟩
  have hoccupied : Entry.occupied ∘ Entry.prune keep = Entry.occupied := by
    funext e
    cases e with
    | empty => rfl
    | tombstone => rfl
    | live k v =>
      simp only [Function.comp_apply, Entry.prune]
      split <;> rfl
  rw [Table.prune, Array.countP_map, hoccupied]
  exact h.used

/-- Setting all entries of another table is setting one after the other. -/
theorem Roomy.insertAll (h : t.Roomy) (source : Table) : (t.insertAll source).Roomy := by
  unfold Table.insertAll
  induction source.toList generalizing t with
  | nil => exact h
  | cons entry rest ih => exact ih (h.insert entry.1 entry.2)

/-- Every table of a bank has room, whatever keys and hashes the requests come with. -/
theorem roomy_bankAfter (past : List Request) (n : Nat) : (bankAfter past n).Roomy := by
  induction past generalizing n with
  | nil => exact roomy_empty
  | cons request past ih =>
    have hset {target : Nat} {t : Table} (ht : t.Roomy) :
        ((bankAfter past).set target t n).Roomy := by
      unfold Bank.set
      split
      · exact ht
      · exact ih n
    cases request with
    | insert target key value => exact hset ((ih target).insert key value)
    | get target key => exact ih n
    | erase target key => exact hset ((ih target).erase key)
    | insertAll target source => exact hset ((ih target).insertAll _)
    | findText target hash wanted => exact ih n
    | toList target => exact ih n
    | size target => exact ih n
    | prune target keep => exact hset ((ih target).prune keep)

/-! ### Counting -/

/-- The occupied slots are the live entries and the tombstones. -/
theorem countP_occupied (t : Table) :
    t.entries.countP Entry.occupied = t.size + t.tombstones := by
  unfold Table.size Table.toList tombstones
  rw [← Array.countP_toList, ← Array.countP_toList]
  induction t.entries.toList with
  | nil => rfl
  | cons e es ih =>
    rw [List.countP_cons, List.countP_cons, List.filterMap_cons, ih]
    cases e <;> simp [Entry.occupied, Entry.isTombstone, Entry.pair?] <;> omega

/-- What a table counts as used are its live entries and its tombstones, if every text always comes
with one hash. -/
theorem used_bankAfter {hashOf : Handle → UInt32} {past : List Request} (n : Nat)
    (hpast : ∀ q ∈ past, q.Hashed hashOf) :
    (bankAfter past n).used = (bankAfter past n).size + (bankAfter past n).tombstones :=
  (kept_of_hashed hpast n).valid.used.trans (countP_occupied _)

/-- Two entries for the text `0`, made under different hashes, that growth puts into one slot. -/
def rehashed : List Request :=
  [.insert 0 ⟨⟨5⟩, 5⟩ .null, .insert 0 ⟨⟨4⟩, 4⟩ .null, .insert 0 ⟨⟨3⟩, 3⟩ .null,
    .insert 0 ⟨⟨2⟩, 2⟩ .null, .insert 0 ⟨⟨1⟩, 15⟩ .null, .insert 0 ⟨⟨0⟩, 0⟩ .null,
    .insert 0 ⟨⟨0⟩, 15⟩ .null]

/-- A text that comes with two hashes may be counted twice. -/
theorem rehashed_counted_twice : (bankAfter rehashed 0).used = 7 ∧
    (bankAfter rehashed 0).size = 6 ∧ (bankAfter rehashed 0).tombstones = 0 := by
  decide +kernel

/-! ### Stopping -/

/-- Whatever was done to a table, with whatever keys and hashes: its capacity is zero or a power of
two of at least eight, it counts at least its live entries and its tombstones as used, and exactly
these if every text always came with one hash, and at most three quarters of its slots. So a table
with slots has an empty one, and a probe for any key or text, without a bound of its own, ends after
looking at no more slots than there are, where the bounded probe says. -/
theorem probes_stop (past : List Request) (n : Nat) :
    let t := bankAfter past n
    (t.capacity = 0 ∨ ∃ k, t.capacity = 2 ^ (k + 3)) ∧
    t.size + t.tombstones ≤ t.used ∧
    ((∃ hashOf, ∀ q ∈ past, q.Hashed hashOf) → t.used = t.size + t.tombstones) ∧
    4 * t.used ≤ 3 * t.capacity ∧
    (0 < t.capacity → .empty ∈ t.entries ∧
      (∀ key : Key, ∃ probed ≤ t.capacity, ∃ slot < t.capacity,
        Probes t.entries key none (key.hash.toNat % t.capacity) probed slot ∧
          findSlot t.entries key = some slot) ∧
      ∀ (hash : UInt32) (wanted : Handle → Bool), ∃ probed ≤ t.capacity,
        ProbesText t.entries hash wanted (hash.toNat % t.capacity) probed
          (probeText t.entries hash wanted t.capacity (hash.toNat % t.capacity))) := by
  intro t
  have hroomy : t.Roomy := roomy_bankAfter past n
  refine ⟨hroomy.capacity, countP_occupied t ▸ hroomy.used, ?_, by have := hroomy.load; omega, ?_⟩
  · rintro ⟨hashOf, hpast⟩
    exact used_bankAfter n hpast
  · intro hn
    have hmem := hroomy.empty_mem hn
    refine ⟨hmem, ?_⟩
    obtain ⟨i, hi, hempty⟩ := Array.mem_iff_getElem.mp hmem
    -- from any home a walk around the slots comes to the empty one
    have hahead (home : Nat) : ∃ e, 0 ≤ e ∧ e < 0 + t.entries.size ∧
        t.entries[walk t.entries home e]? = some .empty := by
      obtain ⟨e, he, hwalk⟩ := exists_walk home hi
      refine ⟨e, Nat.zero_le e, by omega, ?_⟩
      rw [hwalk, Array.getElem?_eq_getElem hi, hempty]
    constructor
    · intro key
      exact probe_stops_within key key.hash.toNat hn t.entries.size 0 none (by simp) (hahead _)
    · intro hash wanted
      exact probeText_stops_within hash wanted hash.toNat hn t.entries.size 0 (hahead _)

end Table

end ScriptMachine
