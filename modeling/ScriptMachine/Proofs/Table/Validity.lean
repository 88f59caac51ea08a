import ScriptMachine.Proofs.Table.Probing

/-!
# Valid tables

A valid table counts its occupied slots, keeps a quarter of its slots empty, and has every live
entry where a probe finds it. Each operation keeps a table valid and changes its entries as an
operation on a finite map from texts to values does.
-/

namespace ScriptMachine

/-- Whether a slot is not empty. -/
def Entry.occupied : Entry → Bool
  | .empty => false
  | _ => true

/-- Whether a slot is a live entry. -/
def Entry.isLive : Entry → Bool
  | .live _ _ => true
  | _ => false

namespace Table

variable {t : Table} {key : Key} {value : Value} {i : Nat}

/-- A table whose slots are used as probing needs it. -/
structure Valid (t : Table) : Prop where
  capacity : t.entries.size = 0 ∨ ∃ n, t.entries.size = 2 ^ (n + 3)
  used : t.used = t.entries.countP Entry.occupied
  load : t.used * 4 ≤ t.entries.size * 3
  reached : Reached t.entries

/-- The table has an entry for the text of `key`. -/
def Has (t : Table) (key : Key) : Prop := ∃ k v, Entry.live k v ∈ t.entries ∧ k.string = key.string

/-- The empty table is valid. -/
theorem valid_empty : Valid Table.empty :=
  ⟨.inl rfl, rfl, Nat.le_refl _, ⟨by simp [Table.empty], by simp [Table.empty]⟩⟩

/-- As long as not every slot is occupied, one is empty. -/
theorem empty_mem {entries : Array Entry} (h : entries.countP Entry.occupied < entries.size) :
    Entry.empty ∈ entries := by
  by_contra hno
  have hall : ∀ e ∈ entries, Entry.occupied e = true := by
    intro e he
    cases e with
    | empty => exact absurd he hno
    | tombstone => rfl
    | live => rfl
  rw [Array.countP_eq_size.mpr hall] at h
  exact Nat.lt_irrefl _ h

/-- A valid table with slots has an empty one. -/
theorem Valid.empty_mem (hv : t.Valid) (hn : 0 < t.entries.size) : Entry.empty ∈ t.entries := by
  have hload := hv.load
  have hused := hv.used
  exact Table.empty_mem (by omega)

/-! ### Writing one slot -/

/-- Occupying a slot breaks no walk. -/
theorem Chained.set {entries : Array Entry} {home j : Nat} {e : Entry}
    (he : e.occupied = true) (h : Chained entries home j) :
    Chained (entries.setIfInBounds i e) home j := by
  obtain ⟨d, hd, hfull⟩ := h
  have hwalk (d : Nat) : walk (entries.setIfInBounds i e) home d = walk entries home d := by
    simp [walk]
  refine ⟨d, by rw [hwalk, hd], fun x hx => ?_⟩
  rw [hwalk, Array.getElem?_setIfInBounds]
  split
  · split
    · rintro h
      rw [Option.some.injEq] at h
      simp [h, Entry.occupied] at he
    · simp
  · exact hfull x hx

/-- A live entry in the slot of its key is where probing finds it. -/
theorem Reached.set {entries : Array Entry} (hr : Reached entries) (hs : SlotOf entries key i) :
    Reached (entries.setIfInBounds i (.live key value)) := by
  have hget (j : Nat) (k : Key) (v : Value)
      (hj : (entries.setIfInBounds i (.live key value))[j]? = some (.live k v)) :
      (j = i ∧ k = key) ∨ (j ≠ i ∧ entries[j]? = some (.live k v)) := by
    rw [Array.getElem?_setIfInBounds] at hj
    split at hj
    · next hij =>
      rw [if_pos (hij ▸ hs.lt), Option.some.injEq, Entry.live.injEq] at hj
      exact .inl ⟨hij.symm, hj.1.symm⟩
    · next hij => exact .inr ⟨Ne.symm hij, hj⟩
  refine ⟨?_, ?_⟩
  · intro a b k v k' v' ha hb hkk
    rcases hget a k v ha with ⟨hai, rfl⟩ | ⟨hai, ha'⟩ <;>
      rcases hget b k' v' hb with ⟨hbi, rfl⟩ | ⟨hbi, hb'⟩
    · exact hai.trans hbi.symm
    · exact absurd ((hs.only b k' v' hb').mp hkk.symm) hbi
    · exact absurd ((hs.only a k v ha').mp hkk) hai
    · exact hr.unique a b k v k' v' ha' hb' hkk
  · intro j k v hj
    rcases hget j k v hj with ⟨rfl, rfl⟩ | ⟨-, hj⟩
    · exact hs.chained.set rfl
    · exact (hr.chained j k v hj).set rfl

/-- Writing the slot of a key replaces the entry of that key and keeps all others. -/
theorem live_mem_set {entries : Array Entry} (hs : SlotOf entries key i) {k : Key} {v : Value} :
    Entry.live k v ∈ entries.setIfInBounds i (.live key value) ↔
      (k = key ∧ v = value) ∨ (Entry.live k v ∈ entries ∧ k.string ≠ key.string) := by
  rw [Array.mem_iff_getElem?]
  constructor
  · rintro ⟨j, hj⟩
    rw [Array.getElem?_setIfInBounds] at hj
    split at hj
    · next hij =>
      rw [if_pos (hij ▸ hs.lt), Option.some.injEq, Entry.live.injEq] at hj
      exact .inl ⟨hj.1.symm, hj.2.symm⟩
    · next hij =>
      exact .inr ⟨Array.mem_of_getElem? hj, fun he => hij ((hs.only j k v hj).mp he).symm⟩
  · rintro (⟨rfl, rfl⟩ | ⟨hmem, hne⟩)
    · exact ⟨i, by simp [hs.lt]⟩
    · obtain ⟨j, hj⟩ := Array.mem_iff_getElem?.mp hmem
      refine ⟨j, ?_⟩
      rw [Array.getElem?_setIfInBounds, if_neg, hj]
      rintro rfl
      exact hne ((hs.only i k v hj).mpr rfl)

/-- The key's text has an entry exactly if the slot of the key is a live entry. -/
theorem has_iff_of_slotOf (hs : SlotOf t.entries key i) :
    t.Has key ↔ ∃ k v, t.entries[i]? = some (.live k v) := by
  constructor
  · rintro ⟨k, v, hmem, hk⟩
    obtain ⟨j, hj⟩ := Array.mem_iff_getElem?.mp hmem
    exact ⟨k, v, (hs.only j k v hj).mp hk ▸ hj⟩
  · rintro ⟨k, v, hi⟩
    exact ⟨k, v, Array.mem_of_getElem? hi, (hs.only i k v hi).mpr rfl⟩

/-- How writing a slot changes the number of occupied ones. -/
theorem countP_set {entries : Array Entry} {e old : Entry} (hold : entries[i]? = some old)
    (he : e.occupied = true) : (entries.setIfInBounds i e).countP Entry.occupied =
      entries.countP Entry.occupied + if old.occupied then 0 else 1 := by
  obtain ⟨hi, hget⟩ := Array.getElem?_eq_some_iff.mp hold
  rw [Array.setIfInBounds, dif_pos hi, Array.countP_set, hget, he]
  cases ho : old.occupied with
  | false => simp
  | true =>
    have hpos : 0 < entries.countP Entry.occupied :=
      Array.countP_pos_iff.mpr ⟨old, Array.mem_of_getElem? hold, ho⟩
    simp
    omega

/-! ### Growing -/

/-- A table that is being filled by growth: no tombstones yet. -/
structure Filling (t : Table) : Prop where
  used : t.used = t.entries.countP Entry.occupied
  reached : Reached t.entries
  live : ∀ e ∈ t.entries, e ≠ .tombstone

/-- Placing an absent key into a table that is being filled. -/
theorem Filling.place (value : Value) (hf : t.Filling) (hroom : t.used < t.entries.size) (ha : ¬ t.Has key) :
    (t.place key value).Filling ∧ (t.place key value).entries.size = t.entries.size ∧
      (t.place key value).used = t.used + 1 ∧
      ∀ k v, Entry.live k v ∈ (t.place key value).entries ↔
        (k = key ∧ v = value) ∨ Entry.live k v ∈ t.entries := by
  have hagrees : Agrees t.entries key := fun k v hmem hk => absurd ⟨k, v, hmem, hk⟩ ha
  obtain ⟨i, hfind, hs⟩ := findSlot_spec hf.reached (Table.empty_mem (hf.used ▸ hroom)) hagrees
  have hlt : i < t.entries.size := hs.lt
  have hget : t.entries[i]? = some t.entries[i] := Array.getElem?_eq_getElem hlt
  have hempty : t.entries[i]? = some .empty := by
    cases he : t.entries[i] with
    | empty => rw [hget, he]
    | tombstone => exact absurd he (hf.live _ (Array.getElem_mem hlt))
    | live k v => exact absurd ((has_iff_of_slotOf hs).mpr ⟨k, v, by rw [hget, he]⟩) ha
  have hplace : t.place key value = ⟨t.used + 1, t.entries.setIfInBounds i (.live key value)⟩ := by
    rw [Table.place, hfind]
  rw [hplace]
  refine ⟨⟨?_, hf.reached.set hs, ?_⟩, by simp, rfl, ?_⟩
  · rw [countP_set hempty rfl, ← hf.used]
    rfl
  · intro e he
    rcases Array.mem_or_eq_of_mem_setIfInBounds he with he | rfl
    · exact hf.live e he
    · simp
  · intro k v
    rw [live_mem_set hs]
    refine or_congr_right ⟨And.left, fun hmem => ⟨hmem, fun hk => ha ⟨k, v, hmem, hk⟩⟩⟩

/-- The live entries of some slots. -/
def liveCount (entries : List Entry) : Nat := entries.countP Entry.isLive

/-- Filling a table with the live entries of slots. -/
theorem Filling.foldl (entries : List Entry) (done : List Entry) (hf : t.Filling)
    (hused : t.used = liveCount done)
    (hmem : ∀ k v, Entry.live k v ∈ t.entries ↔ Entry.live k v ∈ done)
    (hroom : liveCount (done ++ entries) < t.entries.size)
    (hunique : (done ++ entries).Pairwise fun e e' => ∀ k v k' v', e = .live k v → e' = .live k' v' →
      k.string ≠ k'.string) :
    ∃ grown, entries.foldl (fun grown entry => match entry with
        | .live key value => Table.place grown key value
        | _ => grown) t = grown ∧ grown.Filling ∧ grown.entries.size = t.entries.size ∧
      grown.used = liveCount (done ++ entries) ∧
      ∀ k v, Entry.live k v ∈ grown.entries ↔ Entry.live k v ∈ done ++ entries := by
  induction entries generalizing t done with
  | nil => exact ⟨t, rfl, hf, rfl, by simpa using hused, by simpa using hmem⟩
  | cons e entries ih =>
    have happ : done ++ e :: entries = (done ++ [e]) ++ entries := by simp
    rw [List.foldl_cons]
    rw [happ] at hroom hunique ⊢
    have hskip (hdead : e.isLive = false) (hne : ∀ k v, e ≠ .live k v) :
        ∃ grown, entries.foldl (fun grown entry => match entry with
            | .live key value => Table.place grown key value
            | _ => grown) t = grown ∧ grown.Filling ∧ grown.entries.size = t.entries.size ∧
          grown.used = liveCount (done ++ [e] ++ entries) ∧
          ∀ k v, Entry.live k v ∈ grown.entries ↔ Entry.live k v ∈ done ++ [e] ++ entries := by
      refine ih (done ++ [e]) hf (by simp [liveCount, hdead, hused]) ?_ hroom hunique
      intro k v
      rw [hmem, List.mem_append, List.mem_singleton, or_iff_left (Ne.symm (hne k v))]
    cases e with
    | empty => exact hskip rfl (by simp)
    | tombstone => exact hskip rfl (by simp)
    | live key value =>
      have habsent : ¬ t.Has key := by
        rintro ⟨k, v, hk, hs⟩
        have hd : (done ++ [Entry.live key value]).Pairwise _ := (List.pairwise_append.mp hunique).1
        exact (List.pairwise_append.mp hd).2.2 _ ((hmem k v).mp hk) _ (List.mem_singleton.mpr rfl)
          k v key value rfl rfl hs
      have hlt : t.used < t.entries.size := by
        rw [liveCount, List.countP_append, List.countP_append] at hroom
        rw [hused, liveCount]
        omega
      obtain ⟨hf', hsize, hused', hmem'⟩ := hf.place value hlt habsent
      have hmem'' (k : Key) (v : Value) : Entry.live k v ∈ (t.place key value).entries ↔
          Entry.live k v ∈ done ++ [.live key value] := by
        rw [hmem', hmem, List.mem_append, List.mem_singleton, Entry.live.injEq, or_comm]
      obtain ⟨grown, hg, hgf, hgs, hgu, hgm⟩ := ih (done ++ [.live key value]) hf'
        (by simp [hused', hused, liveCount, Entry.isLive]) hmem'' (hsize ▸ hroom) hunique
      exact ⟨grown, hg, hgf, hgs.trans hsize, hgu, hgm⟩

/-- No two live slots are for one text. -/
theorem Reached.pairwise {entries : Array Entry} (hr : Reached entries) :
    entries.toList.Pairwise fun e e' => ∀ k v k' v', e = .live k v → e' = .live k' v' →
      k.string ≠ k'.string := by
  rw [List.pairwise_iff_getElem]
  intro i j hi hj hij k v k' v' he he' hs
  rw [Array.length_toList] at hi hj
  rw [Array.getElem_toList] at he he'
  have := hr.unique i j k v k' v' (by rw [Array.getElem?_eq_getElem hi, he])
    (by rw [Array.getElem?_eq_getElem hj, he']) hs
  omega

/-- What growing to a number of slots gives. -/
theorem Valid.resize (hv : t.Valid) {capacity : Nat} (hroom : t.used < capacity) :
    (t.resize capacity).Filling ∧ (t.resize capacity).entries.size = capacity ∧
      (t.resize capacity).used ≤ t.used ∧
      ∀ k v, Entry.live k v ∈ (t.resize capacity).entries ↔ Entry.live k v ∈ t.entries := by
  have hle : liveCount t.entries.toList ≤ t.used := by
    rw [hv.used, ← Array.countP_toList]
    exact List.countP_mono_left fun e _ he => by cases e <;> simp_all [Entry.isLive, Entry.occupied]
  have hstart : Filling ⟨0, Array.replicate capacity .empty⟩ :=
    ⟨by simp [Array.countP_replicate, Entry.occupied],
      ⟨by simp [Array.getElem?_replicate], by simp [Array.getElem?_replicate]⟩, by simp⟩
  obtain ⟨grown, hg, hgf, hgs, hgu, hgm⟩ := hstart.foldl t.entries.toList [] rfl (by simp)
    (by simpa using Nat.lt_of_le_of_lt hle hroom) (by simpa using hv.reached.pairwise)
  have heq : t.resize capacity = grown := (Array.foldl_toList ..).symm.trans hg
  rw [heq]
  exact ⟨hgf, by simpa using hgs, by simpa [hgu] using hle, by simpa using hgm⟩

/-- Reserving room keeps a table valid and its entries, and leaves room for one more. -/
theorem Valid.reserve (hv : t.Valid) : t.reserve.Valid ∧
    (t.reserve.used + 1) * 4 ≤ t.reserve.entries.size * 3 ∧
    ∀ k v, Entry.live k v ∈ t.reserve.entries ↔ Entry.live k v ∈ t.entries := by
  have hload := hv.load
  unfold Table.reserve
  split
  · next h =>
    have hcap : max (t.entries.size * 2) 8 = 0 ∨
        ∃ n, max (t.entries.size * 2) 8 = 2 ^ (n + 3) := by
      rcases hv.capacity with h0 | ⟨n, hn⟩
      · exact .inr ⟨0, by simp [h0]⟩
      · refine .inr ⟨n + 1, ?_⟩
        have hpos : 1 ≤ 2 ^ n := Nat.one_le_two_pow
        simp only [hn, Nat.pow_succ]
        omega
    have hroom : t.used < max (t.entries.size * 2) 8 := by omega
    obtain ⟨hf, hsize, hused, hmem⟩ := hv.resize hroom
    have hbig : (t.used + 1) * 4 ≤ max (t.entries.size * 2) 8 * 3 := by
      rcases hv.capacity with h0 | ⟨n, hn⟩
      · omega
      · have hpos : 1 ≤ 2 ^ n := Nat.one_le_two_pow
        simp only [Nat.pow_succ] at hn
        omega
    refine ⟨⟨hsize.symm ▸ hcap, hf.used, ?_, hf.reached⟩, ?_, hmem⟩ <;> rw [hsize] <;> omega
  · exact ⟨hv, by omega, by simp⟩

/-! ### The operations -/

/-- What setting a key gives. -/
structure Inserted (t : Table) (key : Key) (value : Value) (result : Bool × Table) : Prop where
  isNew : result.1 = true ↔ ¬ t.Has key
  valid : result.2.Valid
  mem : ∀ k v, Entry.live k v ∈ result.2.entries ↔
    (k = key ∧ v = value) ∨ (Entry.live k v ∈ t.entries ∧ k.string ≠ key.string)

/-- Setting a key replaces its entry, or adds one if there is none. -/
theorem Valid.insert (hv : t.Valid) (ha : Agrees t.entries key) (value : Value) :
    Inserted t key value (t.insert key value) := by
  obtain ⟨hrv, hroom, hmem⟩ := hv.reserve
  have hagrees : Agrees t.reserve.entries key := fun k v hk => ha k v ((hmem k v).mp hk)
  obtain ⟨i, hfind, hs⟩ := findSlot_spec hrv.reached (hrv.empty_mem (by omega)) hagrees
  have hlt : i < t.reserve.entries.size := hs.lt
  have hget : t.reserve.entries[i]? = some t.reserve.entries[i] := Array.getElem?_eq_getElem hlt
  have hhas : t.Has key ↔ ∃ k v, t.reserve.entries[i]? = some (.live k v) := by
    rw [← has_iff_of_slotOf hs]
    exact exists₂_congr fun k v => and_congr_left fun _ => (hmem k v).symm
  have hentries (k : Key) (v : Value) :
      Entry.live k v ∈ t.reserve.entries.setIfInBounds i (.live key value) ↔
        (k = key ∧ v = value) ∨ (Entry.live k v ∈ t.entries ∧ k.string ≠ key.string) := by
    rw [live_mem_set hs, hmem]
  have hvalid (used : Nat) (hused : used =
      (t.reserve.entries.setIfInBounds i (.live key value)).countP Entry.occupied)
      (hle : used ≤ t.reserve.used + 1) :
      Valid ⟨used, t.reserve.entries.setIfInBounds i (.live key value)⟩ :=
    ⟨by simpa using hrv.capacity, hused, by simp; omega, hrv.reached.set hs⟩
  have hcount {old : Entry} (hold : t.reserve.entries[i]? = some old) :=
    countP_set (e := .live key value) hold rfl
  unfold Table.insert
  simp only [hfind]
  cases he : t.reserve.entries[i] with
  | empty =>
    rw [he] at hget
    simp only [hget]
    exact ⟨by simp [hhas, hget], hvalid _ (by rw [hcount hget, ← hrv.used]; rfl) (by omega), hentries⟩
  | tombstone =>
    rw [he] at hget
    simp only [hget]
    exact ⟨by simp [hhas, hget], hvalid _ (by rw [hcount hget, ← hrv.used]; rfl) (by omega), hentries⟩
  | live k v =>
    rw [he] at hget
    simp only [hget]
    exact ⟨by simp [hhas, hget], hvalid _ (by rw [hcount hget, ← hrv.used]; rfl) (by omega), hentries⟩

/-- Reading a key finds its value. -/
theorem Valid.get?_eq_some_iff (hv : t.Valid) (ha : Agrees t.entries key) {v : Value} :
    t.get? key = some v ↔ ∃ k, Entry.live k v ∈ t.entries ∧ k.string = key.string := by
  unfold Table.get?
  have hload := hv.load
  split
  · next h0 =>
    refine ⟨by simp, ?_⟩
    rintro ⟨k, hk, -⟩
    have hpos : 0 < t.entries.countP Entry.occupied := Array.countP_pos_iff.mpr ⟨_, hk, rfl⟩
    have := hv.used
    omega
  · next h0 =>
    obtain ⟨i, hfind, hs⟩ := findSlot_spec hv.reached (hv.empty_mem (by omega)) ha
    rw [hfind, Option.bind_some]
    constructor
    · intro h
      split at h
      · next k v' hk =>
        rw [Option.some.injEq] at h
        exact ⟨k, h ▸ Array.mem_of_getElem? hk, (hs.only i k v' hk).mpr rfl⟩
      · simp at h
    · rintro ⟨k, hk, hks⟩
      obtain ⟨j, hj⟩ := Array.mem_iff_getElem?.mp hk
      obtain rfl := (hs.only j k v hj).mp hks
      simp [hj]

/-- Removing a key keeps a table valid and drops its entry. -/
theorem Valid.erase (hv : t.Valid) (ha : Agrees t.entries key) :
    ((t.erase key).1 = true ↔ t.Has key) ∧ (t.erase key).2.Valid ∧
      ∀ k v, Entry.live k v ∈ (t.erase key).2.entries ↔
        Entry.live k v ∈ t.entries ∧ k.string ≠ key.string := by
  have habsent (h : ¬ t.Has key) (k : Key) (v : Value) : Entry.live k v ∈ t.entries ↔
      Entry.live k v ∈ t.entries ∧ k.string ≠ key.string :=
    ⟨fun hk => ⟨hk, fun hs => h ⟨k, v, hk, hs⟩⟩, And.left⟩
  have hload := hv.load
  unfold Table.erase
  split
  · next h0 =>
    have hno : ¬ t.Has key := by
      rintro ⟨k, v, hk, -⟩
      have hpos : 0 < t.entries.countP Entry.occupied := Array.countP_pos_iff.mpr ⟨_, hk, rfl⟩
      have := hv.used
      omega
    exact ⟨by simp [hno], hv, habsent hno⟩
  · next h0 =>
    obtain ⟨i, hfind, hs⟩ := findSlot_spec hv.reached (hv.empty_mem (by omega)) ha
    have hlt : i < t.entries.size := hs.lt
    have hget : t.entries[i]? = some t.entries[i] := Array.getElem?_eq_getElem hlt
    have hhas := has_iff_of_slotOf hs
    simp only [hfind]
    cases he : t.entries[i] with
    | empty =>
      rw [he] at hget
      have hno : ¬ t.Has key := by simp [hhas, hget]
      simp only [hget]
      exact ⟨by simp [hno], hv, habsent hno⟩
    | tombstone =>
      rw [he] at hget
      have hno : ¬ t.Has key := by simp [hhas, hget]
      simp only [hget]
      exact ⟨by simp [hno], hv, habsent hno⟩
    | live k v =>
      rw [he] at hget
      have hold (j : Nat) (k' : Key) (v' : Value) :
          (t.entries.setIfInBounds i .tombstone)[j]? = some (.live k' v') ↔
            j ≠ i ∧ t.entries[j]? = some (.live k' v') := by
        rw [Array.getElem?_setIfInBounds]
        by_cases hij : i = j
        · subst hij
          simp [hlt]
        · simp [hij, Ne.symm hij]
      simp only [hget]
      refine ⟨by simp [hhas, hget], ⟨by simpa using hv.capacity, ?_, by simpa using hload, ?_, ?_⟩, ?_⟩
      · rw [countP_set hget rfl]
        exact hv.used
      · intro a b k v k' v' hk hk' hkk
        exact hv.reached.unique a b k v k' v' ((hold a k v).mp hk).2 ((hold b k' v').mp hk').2 hkk
      · intro j k v hk
        exact (hv.reached.chained j k v ((hold j k v).mp hk).2).set rfl
      · intro k v
        rw [Array.mem_iff_getElem?]
        constructor
        · rintro ⟨j, hj⟩
          obtain ⟨hji, hj⟩ := (hold j k v).mp hj
          exact ⟨Array.mem_of_getElem? hj, fun hks => hji ((hs.only j k v hj).mp hks)⟩
        · rintro ⟨hk, hks⟩
          obtain ⟨j, hj⟩ := Array.mem_iff_getElem?.mp hk
          exact ⟨j, (hold j k v).mpr ⟨fun hji => hks ((hs.only j k v hj).mpr hji), hj⟩⟩

/-- Pruning keeps a table valid and drops exactly the entries that are not kept. -/
theorem Valid.prune (hv : t.Valid) (keep : Handle → Bool) : (t.prune keep).2.Valid ∧
    ∀ k v, Entry.live k v ∈ (t.prune keep).2.entries ↔
      Entry.live k v ∈ t.entries ∧ keep k.string = true := by
  have hpair (e : Entry) (k : Key) (v : Value) :
      e.prune keep = .live k v ↔ e = .live k v ∧ keep k.string = true := by
    cases e with
    | empty => simp [Entry.prune]
    | tombstone => simp [Entry.prune]
    | live k' v' =>
      simp only [Entry.prune, Entry.live.injEq]
      split
      · next h =>
        rw [Entry.live.injEq]
        exact ⟨fun hk => ⟨hk, hk.1 ▸ h⟩, And.left⟩
      · next h =>
        refine ⟨by simp, ?_⟩
        rintro ⟨⟨rfl, rfl⟩, hk⟩
        exact absurd hk h
  have hoccupied (e : Entry) : (e.prune keep).occupied = e.occupied := by
    cases e with
    | empty => rfl
    | tombstone => rfl
    | live k v =>
      simp only [Entry.prune]
      split <;> rfl
  have hget (j : Nat) (k : Key) (v : Value) :
      (t.entries.map (Entry.prune keep))[j]? = some (.live k v) ↔
        t.entries[j]? = some (.live k v) ∧ keep k.string = true := by
    rw [Array.getElem?_map]
    cases t.entries[j]? with
    | none => simp
    | some e => simp [hpair]
  refine ⟨⟨by simpa [Table.prune] using hv.capacity, ?_, by simpa [Table.prune] using hv.load, ?_, ?_⟩, ?_⟩
  · show t.used = _
    rw [hv.used, Table.prune, Array.countP_map]
    exact congrArg (t.entries.countP ·) (funext fun e => (hoccupied e).symm)
  · intro a b k v k' v' hk hk' hkk
    exact hv.reached.unique a b k v k' v' ((hget a k v).mp hk).1 ((hget b k' v').mp hk').1 hkk
  · intro j k v hk
    obtain ⟨d, hd, hfull⟩ := hv.reached.chained j k v ((hget j k v).mp hk).1
    have hwalk (d : Nat) : walk (t.prune keep).2.entries k.hash.toNat d =
        walk t.entries k.hash.toNat d := by simp [walk, Table.prune]
    refine ⟨d, (hwalk d).trans hd, fun e he hempty => hfull e he ?_⟩
    rw [hwalk, Table.prune, Array.getElem?_map, Option.map_eq_some_iff] at hempty
    obtain ⟨entry, hentry, hp⟩ := hempty
    have hocc := hoccupied entry
    rw [hp] at hocc
    cases entry with
    | empty => exact hentry
    | tombstone => simp [Entry.occupied] at hocc
    | live => simp [Entry.occupied] at hocc
  · intro k v
    rw [Array.mem_iff_getElem?, Array.mem_iff_getElem?]
    constructor
    · rintro ⟨j, hj⟩
      exact ⟨⟨j, ((hget j k v).mp hj).1⟩, ((hget j k v).mp hj).2⟩
    · rintro ⟨⟨j, hj⟩, hk⟩
      exact ⟨j, (hget j k v).mpr ⟨hj, hk⟩⟩

/-- Searching by content finds a key with the hash and the content, if one is there. -/
theorem Valid.findText? (hv : t.Valid) (hash : UInt32) (wanted : Handle → Bool) :
    (∀ r, t.findText? hash wanted = some r →
      ∃ k v, Entry.live k v ∈ t.entries ∧ k.hash = hash ∧ k.string = r ∧ wanted r = true) ∧
    (t.findText? hash wanted = none → ∀ k v, Entry.live k v ∈ t.entries → k.hash = hash →
      wanted k.string = false) := by
  have hload := hv.load
  unfold Table.findText?
  split
  · next h0 =>
    refine ⟨by simp, fun _ k v hk => ?_⟩
    have hpos : 0 < t.entries.countP Entry.occupied := Array.countP_pos_iff.mpr ⟨_, hk, rfl⟩
    have := hv.used
    omega
  · next h0 =>
    have hn : 0 < t.entries.size := by omega
    have hstart : hash.toNat % t.entries.size = walk t.entries hash.toNat 0 := rfl
    obtain ⟨hfound, hmissed⟩ := probeText_spec hash wanted hash.toNat hn
      t.entries.size 0
    rw [hstart]
    refine ⟨hfound, fun hnone k v hk hkh => ?_⟩
    obtain ⟨j, hj⟩ := Array.mem_iff_getElem?.mp hk
    obtain ⟨d, hd, hfull⟩ := hv.reached.chained j k v hj
    rw [hkh] at hd hfull
    -- an empty slot exists, so the walk to the entry is shorter than once around
    obtain ⟨a, ha, haempty⟩ := Array.mem_iff_getElem.mp (hv.empty_mem hn)
    obtain ⟨e, he, hwalk⟩ := exists_walk hash.toNat ha
    have hde : d < t.entries.size := by
      by_contra hge
      refine hfull e (by omega) ?_
      rw [hwalk, Array.getElem?_eq_getElem ha, haempty]
    exact hmissed hnone d (Nat.zero_le d) (by omega) (fun e _ => hfull e) k v (hd ▸ hj) hkh

/-- Every key of the table has the hash that `hashOf` gives its text. -/
def HashedBy (hashOf : Handle → UInt32) (t : Table) : Prop :=
  ∀ k v, Entry.live k v ∈ t.entries → k.hash = hashOf k.string

/-- A key with the right hash agrees with every entry for its text. -/
theorem HashedBy.agrees {hashOf : Handle → UInt32} (ht : t.HashedBy hashOf)
    (hk : key.hash = hashOf key.string) : Agrees t.entries key := by
  intro k v hmem hs
  rw [ht k v hmem, hk, hs]

/-- Setting a key with the right hash keeps all hashes right. -/
theorem HashedBy.insert {hashOf : Handle → UInt32} (ht : t.HashedBy hashOf) (hv : t.Valid)
    (hk : key.hash = hashOf key.string) : (t.insert key value).2.HashedBy hashOf := by
  intro k v hmem
  rcases ((hv.insert (ht.agrees hk) value).mem k v).mp hmem with ⟨rfl, -⟩ | ⟨hmem, -⟩
  · exact hk
  · exact ht k v hmem

/-- The listed entries of a table are its live slots. -/
theorem mem_toList {k : Key} {v : Value} : (k, v) ∈ t.toList ↔ Entry.live k v ∈ t.entries := by
  simp only [Table.toList, List.mem_filterMap, Array.mem_toList_iff]
  constructor
  · rintro ⟨entry, mem, pair⟩
    cases entry <;> simp_all [Entry.pair?]
  · exact fun mem => ⟨_, mem, rfl⟩

/-- No two listed entries are for one text. -/
theorem Valid.pairwise_toList (hv : t.Valid) :
    t.toList.Pairwise fun a b => a.1.string ≠ b.1.string := by
  rw [Table.toList, List.pairwise_filterMap]
  refine hv.reached.pairwise.imp fun {e e'} h a ha b hb => ?_
  cases e <;> cases e' <;> simp_all [Entry.pair?]
  · obtain rfl := ha
    obtain rfl := hb
    exact h _ _ _ _ rfl rfl rfl rfl

/-- Setting all entries of another table overrides with them. -/
theorem Valid.insertAll {hashOf : Handle → UInt32} {source : Table} (hv : t.Valid)
    (ht : t.HashedBy hashOf) (hsv : source.Valid) (hs : source.HashedBy hashOf) :
    (t.insertAll source).Valid ∧ (t.insertAll source).HashedBy hashOf ∧
      ∀ k v, Entry.live k v ∈ (t.insertAll source).entries ↔
        Entry.live k v ∈ source.entries ∨ (Entry.live k v ∈ t.entries ∧ ¬ source.Has k) := by
  have hgo (rest : List (Key × Value)) (hrest : ∀ a ∈ rest, a.1.hash = hashOf a.1.string)
      (hdistinct : rest.Pairwise fun a b => a.1.string ≠ b.1.string) :
      ∀ t : Table, t.Valid → t.HashedBy hashOf →
        (rest.foldl (fun t entry => (t.insert entry.1 entry.2).2) t).Valid ∧
        (rest.foldl (fun t entry => (t.insert entry.1 entry.2).2) t).HashedBy hashOf ∧
        ∀ k v, Entry.live k v ∈ (rest.foldl (fun t entry => (t.insert entry.1 entry.2).2) t).entries ↔
          (k, v) ∈ rest ∨ (Entry.live k v ∈ t.entries ∧ ∀ a ∈ rest, a.1.string ≠ k.string) := by
    induction rest with
    | nil => exact fun t hv ht => ⟨hv, ht, by simp⟩
    | cons a rest ih =>
      intro t hv ht
      obtain ⟨hhead, htail⟩ := List.pairwise_cons.mp hdistinct
      have hi := hv.insert (ht.agrees (hrest a List.mem_cons_self)) a.2
      obtain ⟨hv', ht', hmem⟩ := ih (fun b hb => hrest b (List.mem_cons_of_mem _ hb)) htail _
        hi.valid (ht.insert hv (hrest a List.mem_cons_self))
      refine ⟨hv', ht', fun k v => ?_⟩
      rw [List.foldl_cons, hmem, hi.mem]
      constructor
      · rintro (h | ⟨⟨rfl, rfl⟩ | ⟨h, hne⟩, hall⟩)
        · exact .inl (List.mem_cons_of_mem _ h)
        · exact .inl List.mem_cons_self
        · refine .inr ⟨h, fun b hb => ?_⟩
          rcases List.mem_cons.mp hb with rfl | hb
          · exact Ne.symm hne
          · exact hall b hb
      · rintro (h | ⟨h, hall⟩)
        · rcases List.mem_cons.mp h with rfl | h
          · exact .inr ⟨.inl ⟨rfl, rfl⟩, fun b hb => Ne.symm (hhead b hb)⟩
          · exact .inl h
        · exact .inr ⟨.inr ⟨h, Ne.symm (hall a List.mem_cons_self)⟩,
            fun b hb => hall b (List.mem_cons_of_mem _ hb)⟩
  obtain ⟨hv', ht', hmem⟩ := hgo source.toList (fun a ha => hs _ _ (mem_toList.mp ha))
    hsv.pairwise_toList t hv ht
  refine ⟨hv', ht', fun k v => ?_⟩
  rw [Table.insertAll, hmem, mem_toList]
  refine or_congr_right (and_congr_right fun _ => ?_)
  constructor
  · rintro h ⟨k', v', hk', hks⟩
    exact h (k', v') (mem_toList.mpr hk') hks
  · intro h a ha hks
    exact h ⟨a.1, a.2, mem_toList.mp ha, hks⟩

end Table

end ScriptMachine
