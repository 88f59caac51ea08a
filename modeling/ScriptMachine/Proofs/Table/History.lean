import ScriptMachine.Proofs.Table.Validity

/-!
# Tables as finite maps

A bank of tables, told apart by numbers and empty at first, is worked on by requests. The history
of the requests alone says what each table holds: for a key the value it was set to last, unless
it was removed since. The main statement is that every answer of the tables is the one that this
finite map gives, whatever the requests before it were and however the hashes of the keys collide.
Only the order in which a table lists its entries, and which one of several keys with the wanted
content a search finds, are left open.
-/

namespace ScriptMachine.Table

/-- A request to the tables of a bank. -/
inductive Request
  | insert (target : Nat) (key : Key) (value : Value)
  | get (target : Nat) (key : Key)
  | erase (target : Nat) (key : Key)
  | insertAll (target source : Nat)
  | findText (target : Nat) (hash : UInt32) (wanted : Handle → Bool)
  | toList (target : Nat)
  | size (target : Nat)
  | prune (target : Nat) (keep : Handle → Bool)

/-- What a request is answered with. -/
inductive Answer
  | done
  | flag (b : Bool)
  | value (v : Option Value)
  | handle (r : Option Handle)
  | entries (es : List (Key × Value))
  | count (n : Nat)

/-- The tables, by their numbers. -/
abbrev Bank := Nat → Table

/-- The bank with another table in place of one. -/
def Bank.set (bank : Bank) (target : Nat) (t : Table) : Bank :=
  fun n => if n = target then t else bank n

namespace Request

/-- Carries a request out: the answer and the bank afterwards. -/
def run (bank : Bank) : Request → Answer × Bank
  | insert target key value =>
    let result := (bank target).insert key value
    (.flag result.1, bank.set target result.2)
  | get target key => (.value ((bank target).get? key), bank)
  | erase target key =>
    let result := (bank target).erase key
    (.flag result.1, bank.set target result.2)
  | insertAll target source => (.done, bank.set target ((bank target).insertAll (bank source)))
  | findText target hash wanted => (.handle ((bank target).findText? hash wanted), bank)
  | toList target => (.entries (bank target).toList, bank)
  | size target => (.count (bank target).size, bank)
  | prune target keep =>
    let result := (bank target).prune keep
    (.count result.1, bank.set target result.2)

/-- The keys of a request have the hashes that `hashOf` gives their texts. -/
def Hashed (hashOf : Handle → UInt32) : Request → Prop
  | insert _ key _ | get _ key | erase _ key => key.hash = hashOf key.string
  | insertAll _ _ | findText _ _ _ | toList _ | size _ | prune _ _ => True

end Request

/-- The bank after a history, which lists the latest request first. -/
def bankAfter : List Request → Bank
  | [] => fun _ => Table.empty
  | request :: past => (request.run (bankAfter past)).2

/-- What a history set the key of a text to in one table: the value of the last request that set
it, unless a later one removed it. -/
def recorded : List Request → Nat → Handle → Option Value
  | [], _, _ => none
  | .insert target key value :: past, n, r =>
    if n = target ∧ r = key.string then some value else recorded past n r
  | .erase target key :: past, n, r =>
    if n = target ∧ r = key.string then none else recorded past n r
  | .insertAll target source :: past, n, r =>
    if n = target then (recorded past source r).or (recorded past target r) else recorded past n r
  | .prune target keep :: past, n, r =>
    if n = target ∧ keep r = false then none else recorded past n r
  | .get _ _ :: past, n, r | .findText _ _ _ :: past, n, r | .toList _ :: past, n, r
  | .size _ :: past, n, r => recorded past n r

/-- A list names each key of a finite map once, with its hash and its value. -/
structure Lists (hashOf : Handle → UInt32) (map : Handle → Option Value)
    (es : List (Key × Value)) : Prop where
  once : (es.map fun e => e.1.string).Nodup
  mem : ∀ k v, (k, v) ∈ es ↔ map k.string = some v ∧ k.hash = hashOf k.string

/-- The answer that finite maps give to a request. -/
inductive Gives (hashOf : Handle → UInt32) (maps : Nat → Handle → Option Value) :
    Request → Answer → Prop
  | insert {n : Nat} {key : Key} {v : Value} :
      Gives hashOf maps (.insert n key v) (.flag (maps n key.string).isNone)
  | get {n : Nat} {key : Key} : Gives hashOf maps (.get n key) (.value (maps n key.string))
  | erase {n : Nat} {key : Key} :
      Gives hashOf maps (.erase n key) (.flag (maps n key.string).isSome)
  | insertAll {n m : Nat} : Gives hashOf maps (.insertAll n m) .done
  | found {n : Nat} {hash : UInt32} {wanted : Handle → Bool} {r : Handle}
      (present : (maps n r).isSome) (hashed : hashOf r = hash) (content : wanted r = true) :
      Gives hashOf maps (.findText n hash wanted) (.handle (some r))
  | missed {n : Nat} {hash : UInt32} {wanted : Handle → Bool}
      (absent : ∀ r, (maps n r).isSome → hashOf r = hash → wanted r = false) :
      Gives hashOf maps (.findText n hash wanted) (.handle none)
  | toList {n : Nat} {es : List (Key × Value)} (lists : Lists hashOf (maps n) es) :
      Gives hashOf maps (.toList n) (.entries es)
  | size {n : Nat} {es : List (Key × Value)} (lists : Lists hashOf (maps n) es) :
      Gives hashOf maps (.size n) (.count es.length)
  | prune {n : Nat} {keep : Handle → Bool} {es : List (Key × Value)}
      (lists : Lists hashOf (fun r => if keep r then none else maps n r) es) :
      Gives hashOf maps (.prune n keep) (.count es.length)

/-! ### One table -/

/-- A valid table whose live entries are those of a finite map. -/
structure Holding (hashOf : Handle → UInt32) (t : Table) (map : Handle → Option Value) : Prop where
  valid : t.Valid
  mem : ∀ k v, Entry.live k v ∈ t.entries ↔ map k.string = some v ∧ k.hash = hashOf k.string

section Holding

variable {hashOf : Handle → UInt32} {t source : Table} {map other : Handle → Option Value} {key : Key}

/-- The empty table holds the empty map. -/
theorem holding_empty : Holding hashOf Table.empty fun _ => none :=
  ⟨valid_empty, by simp [Table.empty]⟩

/-- The keys of a table that holds a map have the right hashes. -/
theorem Holding.hashedBy (h : Holding hashOf t map) : t.HashedBy hashOf :=
  fun k v hk => ((h.mem k v).mp hk).2

/-- Every key of the map has its entry. -/
theorem Holding.entry (h : Holding hashOf t map) {r : Handle} {v : Value} (hr : map r = some v) :
    Entry.live ⟨r, hashOf r⟩ v ∈ t.entries := (h.mem _ _).mpr ⟨hr, rfl⟩

/-- A table has an entry exactly for the keys of its map. -/
theorem Holding.has_iff (h : Holding hashOf t map) : t.Has key ↔ (map key.string).isSome := by
  rw [Option.isSome_iff_exists]
  constructor
  · rintro ⟨k, v, hmem, hk⟩
    exact ⟨v, hk ▸ ((h.mem k v).mp hmem).1⟩
  · rintro ⟨v, hv⟩
    exact ⟨_, v, h.entry hv, rfl⟩

/-- A table holds the map that its entries are those of. -/
theorem Holding.congr (h : Holding hashOf t map) (heq : ∀ r, other r = map r) :
    Holding hashOf t other := funext heq ▸ h

/-- Setting a key sets it in the map, and tells whether it was absent. -/
theorem Holding.insert (h : Holding hashOf t map) (hk : key.hash = hashOf key.string) (v : Value) :
    (t.insert key v).1 = (map key.string).isNone ∧
      Holding hashOf (t.insert key v).2 fun r => if r = key.string then some v else map r := by
  have hi := h.valid.insert (h.hashedBy.agrees hk) v
  refine ⟨?_, hi.valid, fun k w => ?_⟩
  · rw [Bool.eq_iff_iff, hi.isNew, h.has_iff]
    cases map key.string <;> simp
  · rw [hi.mem, h.mem]
    by_cases hs : k.string = key.string
    · simp only [hs, if_true, ne_eq, not_true, and_false, or_false, Option.some.injEq]
      constructor
      · rintro ⟨rfl, rfl⟩
        exact ⟨rfl, hk⟩
      · rintro ⟨rfl, hh⟩
        obtain ⟨s, x⟩ := k
        obtain rfl : s = key.string := hs
        exact ⟨by rw [show x = key.hash from hh.trans hk.symm], rfl⟩
    · have hne : k ≠ key := fun e => hs (e ▸ rfl)
      simp [hs, hne]

/-- Removing a key removes it from the map, and tells whether it was there. -/
theorem Holding.erase (h : Holding hashOf t map) (hk : key.hash = hashOf key.string) :
    (t.erase key).1 = (map key.string).isSome ∧
      Holding hashOf (t.erase key).2 fun r => if r = key.string then none else map r := by
  obtain ⟨hflag, hvalid, hmem⟩ := h.valid.erase (h.hashedBy.agrees hk)
  refine ⟨by rw [Bool.eq_iff_iff, hflag, h.has_iff], hvalid, fun k w => ?_⟩
  rw [hmem, h.mem]
  by_cases hs : k.string = key.string <;> simp [hs]

/-- Reading a key reads the map. -/
theorem Holding.get? (h : Holding hashOf t map) (hk : key.hash = hashOf key.string) :
    t.get? key = map key.string := by
  apply Option.ext
  intro v
  rw [h.valid.get?_eq_some_iff (h.hashedBy.agrees hk)]
  constructor
  · rintro ⟨k, hmem, hs⟩
    exact hs ▸ ((h.mem k v).mp hmem).1
  · intro hv
    exact ⟨_, h.entry hv, rfl⟩

/-- Setting all entries of another table overrides the map with the other one's. -/
theorem Holding.insertAll (h : Holding hashOf t map) (hs : Holding hashOf source other) :
    Holding hashOf (t.insertAll source) fun r => (other r).or (map r) := by
  obtain ⟨hvalid, -, hmem⟩ := h.valid.insertAll h.hashedBy hs.valid hs.hashedBy
  refine ⟨hvalid, fun k v => ?_⟩
  rw [hmem, hs.mem, h.mem, hs.has_iff]
  cases other k.string <;> simp

/-- Searching by content finds a key of the map with the hash and the content, if there is one. -/
theorem Holding.findText (h : Holding hashOf t map) {maps : Nat → Handle → Option Value} {n : Nat}
    (hn : maps n = map) (hash : UInt32) (wanted : Handle → Bool) :
    Gives hashOf maps (.findText n hash wanted) (.handle (t.findText? hash wanted)) := by
  obtain ⟨hfound, hmissed⟩ := h.valid.findText? hash wanted
  cases hresult : t.findText? hash wanted with
  | some r =>
    obtain ⟨k, v, hmem, hh, rfl, hw⟩ := hfound r hresult
    obtain ⟨hv, hk⟩ := (h.mem k v).mp hmem
    exact .found (by rw [hn, hv]; rfl) (hk.symm.trans hh) hw
  | none =>
    refine .missed fun r hr hh => ?_
    obtain ⟨v, hv⟩ := Option.isSome_iff_exists.mp hr
    exact hmissed hresult _ v (h.entry (hn ▸ hv)) hh

/-- A table lists its map. -/
theorem Holding.lists (h : Holding hashOf t map) : Lists hashOf map t.toList := by
  refine ⟨?_, fun k v => by rw [mem_toList, h.mem]⟩
  rw [List.Nodup, List.pairwise_map]
  exact h.valid.pairwise_toList

/-- Pruning removes the keys that are not kept from the map, and counts them. -/
theorem Holding.prune (h : Holding hashOf t map) (keep : Handle → Bool) :
    (∃ es, Lists hashOf (fun r => if keep r then none else map r) es ∧
      (t.prune keep).1 = es.length) ∧
      Holding hashOf (t.prune keep).2 fun r => if keep r = false then none else map r := by
  obtain ⟨hvalid, hmem⟩ := h.valid.prune keep
  refine ⟨⟨t.toList.filter fun e => !keep e.1.string, ⟨?_, fun k v => ?_⟩, ?_⟩, hvalid,
    fun k v => ?_⟩
  · exact h.lists.once.sublist (List.filter_sublist.map _)
  · rw [List.mem_filter, h.lists.mem]
    cases keep k.string <;> simp
  · exact List.countP_eq_length_filter
  · rw [hmem, h.mem]
    cases keep k.string <;> simp

end Holding

/-! ### Banks of tables -/

section Banks

variable {hashOf : Handle → UInt32} {request : Request} {past : List Request}

/-- Every table of the bank holds what the history says. -/
abbrev Kept (hashOf : Handle → UInt32) (past : List Request) : Prop :=
  ∀ n, Holding hashOf (bankAfter past n) (recorded past n)

/-- A request that changes one table leaves the others as they were recorded. -/
theorem Kept.set (h : Kept hashOf past) {target : Nat} {t : Table} {map : Handle → Option Value}
    (ht : Holding hashOf t map) (n : Nat) :
    Holding hashOf ((bankAfter past).set target t n)
      (if n = target then map else recorded past n) := by
  unfold Bank.set
  split
  · exact ht
  · exact h n

/-- One more request is answered by the maps and recorded. -/
theorem Kept.cons (h : Kept hashOf past) (hr : request.Hashed hashOf) :
    Gives hashOf (recorded past) request (request.run (bankAfter past)).1 ∧
      Kept hashOf (request :: past) := by
  cases request with
  | insert target key v =>
    obtain ⟨hflag, hnew⟩ := (h target).insert hr v
    refine ⟨?_, fun n => (h.set hnew n).congr fun r => ?_⟩
    · rw [Request.run, hflag]
      exact .insert
    · by_cases hn : n = target <;> simp [recorded, hn]
  | get target key =>
    refine ⟨?_, h⟩
    rw [Request.run, (h target).get? hr]
    exact .get
  | erase target key =>
    obtain ⟨hflag, hnew⟩ := (h target).erase hr
    refine ⟨?_, fun n => (h.set hnew n).congr fun r => ?_⟩
    · rw [Request.run, hflag]
      exact .erase
    · by_cases hn : n = target <;> simp [recorded, hn]
  | insertAll target source =>
    refine ⟨.insertAll, fun n => (h.set ((h target).insertAll (h source)) n).congr fun r => ?_⟩
    by_cases hn : n = target <;> simp [recorded, hn]
  | findText target hash wanted => exact ⟨(h target).findText rfl hash wanted, h⟩
  | toList target => exact ⟨.toList (h target).lists, h⟩
  | size target => exact ⟨.size (h target).lists, h⟩
  | prune target keep =>
    obtain ⟨⟨es, hlists, hcount⟩, hnew⟩ := (h target).prune keep
    refine ⟨?_, fun n => (h.set hnew n).congr fun r => ?_⟩
    · rw [Request.run, hcount]
      exact .prune hlists
    · by_cases hn : n = target <;> simp [recorded, hn]

/-- Every table of a bank holds what its history says, whatever the requests were. -/
theorem kept_of_hashed (hpast : ∀ q ∈ past, q.Hashed hashOf) : Kept hashOf past := by
  induction past with
  | nil => exact fun n => holding_empty
  | cons q past ih =>
    have hkept := ih fun p hp => hpast p (List.mem_cons_of_mem _ hp)
    exact (hkept.cons (hpast q List.mem_cons_self)).2

/-- Tables answer every request as the finite maps that the history of requests describes. -/
theorem answers_as_finite_maps (hashOf : Handle → UInt32) (past : List Request) (request : Request)
    (hpast : ∀ q ∈ past, q.Hashed hashOf) (hrequest : request.Hashed hashOf) :
    Gives hashOf (recorded past) request (request.run (bankAfter past)).1 :=
  ((kept_of_hashed hpast).cons hrequest).1

/-- Two texts with one hash whose home is the last slot. -/
def clashing : List Request :=
  [.erase 0 ⟨⟨1⟩, 7⟩, .insertAll 1 0, .insert 0 ⟨⟨2⟩, 7⟩ (.ofBool true), .insert 0 ⟨⟨1⟩, 7⟩ .null]

/-- A key whose probe goes around the end and past a tombstone is found with its value. -/
theorem answers_behind_tombstone :
    (∀ q ∈ clashing, q.Hashed fun _ => 7) ∧
      ((Request.get 0 ⟨⟨2⟩, 7⟩).run (bankAfter clashing)).1 = .value (some (.ofBool true)) := by
  have hpast : ∀ q ∈ clashing, q.Hashed fun _ => 7 := by
    simp [clashing, Request.Hashed]
  refine ⟨hpast, ?_⟩
  have hgives := answers_as_finite_maps (fun _ => 7) clashing (.get 0 ⟨⟨2⟩, 7⟩) hpast rfl
  generalize ((Request.get 0 ⟨⟨2⟩, 7⟩).run (bankAfter clashing)).1 = answer at hgives ⊢
  cases hgives
  simp [recorded, clashing]

end Banks

end ScriptMachine.Table
