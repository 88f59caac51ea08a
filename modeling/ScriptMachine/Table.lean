import ScriptMachine.Value

/-!
# Tables from interned texts to values

An open-addressed table with linear probing. A key is the handle of an interned text together
with the text's hash, so two keys are the same exactly if their handles are. Deleting leaves a
tombstone that keeps later probes going; an insertion may take it over, and growth drops them
all. At least a quarter of the slots stay empty, so every probe ends.
-/

namespace ScriptMachine

/-- An interned text used as a key, with its hash. -/
structure Key where
  string : Handle
  hash : UInt32
deriving DecidableEq

/-- One slot of a table. -/
inductive Entry
  | empty
  | tombstone
  | live (key : Key) (value : Value)

/-- The live entry of a slot. -/
def Entry.pair? : Entry → Option (Key × Value)
  | .live key value => some (key, value)
  | _ => none

/-- A live entry becomes a tombstone unless its key is kept. -/
def Entry.prune (keep : Handle → Bool) : Entry → Entry
  | .live key value => if keep key.string then .live key value else .tombstone
  | entry => entry

/-- A table; `used` counts its live entries and its tombstones. -/
structure Table where
  used : Nat
  entries : Array Entry

namespace Table

/-- The table without slots. -/
def empty : Table := ⟨0, #[]⟩

/-- The number of slots. -/
def capacity (t : Table) : Nat := t.entries.size

/-- The bytes a slot is charged for. -/
def entryBytes : Nat := 24

/-- The slot after `i` on the way around `size` slots. -/
def nextSlot (size i : Nat) : Nat := if i + 1 < size then i + 1 else 0

/-- Probes from slot `i`, for at most `fuel` slots, for `key` or for the slot where it would be
put: the first tombstone passed, else the empty slot that ends the probe. -/
def probe (entries : Array Entry) (key : Key) : (fuel : Nat) → (i : Nat) →
    (passed : Option Nat) → Option Nat
  | 0, _, passed => passed
  | fuel + 1, i, passed =>
    match entries[i]? with
    | none => passed
    | some .empty => some (passed.getD i)
    | some .tombstone => probe entries key fuel (nextSlot entries.size i) (some (passed.getD i))
    | some (.live existing _) =>
      if existing.string = key.string then some i
      else probe entries key fuel (nextSlot entries.size i) passed

/-- The slot that holds `key`, or the one to put it in. -/
def findSlot (entries : Array Entry) (key : Key) : Option Nat :=
  probe entries key entries.size (key.hash.toNat % entries.size) none

/-- The value of a key. -/
def get? (t : Table) (key : Key) : Option Value :=
  if t.used = 0 then none
  else
    match (findSlot t.entries key).bind (t.entries[·]?) with
    | some (.live _ value) => some value
    | _ => none

/-- Puts a live entry into the slot found for it. -/
def place (t : Table) (key : Key) (value : Value) : Table :=
  match findSlot t.entries key with
  | none => t
  | some i => ⟨t.used + 1, t.entries.setIfInBounds i (.live key value)⟩

/-- A table of `capacity` slots with the same live entries and no tombstones. -/
def resize (t : Table) (capacity : Nat) : Table :=
  t.entries.foldl
    (fun grown entry => match entry with
      | .live key value => grown.place key value
      | _ => grown)
    ⟨0, Array.replicate capacity .empty⟩

/-- Room for one more entry: at most three quarters of the slots are used. -/
def reserve (t : Table) : Table :=
  if (t.used + 1) * 4 > t.entries.size * 3 then t.resize (max (t.entries.size * 2) 8) else t

/-- Sets the value of a key; the answer tells whether the key is new. -/
def insert (t : Table) (key : Key) (value : Value) : Bool × Table :=
  let t := t.reserve
  match findSlot t.entries key with
  | none => (false, t)
  | some i =>
    match t.entries[i]? with
    | some (.live _ _) => (false, ⟨t.used, t.entries.setIfInBounds i (.live key value)⟩)
    | some .tombstone => (true, ⟨t.used, t.entries.setIfInBounds i (.live key value)⟩)
    | _ => (true, ⟨t.used + 1, t.entries.setIfInBounds i (.live key value)⟩)

/-- Removes a key; the answer tells whether it was there. -/
def erase (t : Table) (key : Key) : Bool × Table :=
  if t.used = 0 then (false, t)
  else
    match findSlot t.entries key with
    | none => (false, t)
    | some i =>
      match t.entries[i]? with
      | some (.live _ _) => (true, ⟨t.used, t.entries.setIfInBounds i .tombstone⟩)
      | _ => (false, t)

/-- The live entries in slot order. -/
def toList (t : Table) : List (Key × Value) := t.entries.toList.filterMap Entry.pair?

/-- The number of live entries. -/
def size (t : Table) : Nat := t.toList.length

/-- Sets every entry of `source` in `target`. -/
def insertAll (target source : Table) : Table :=
  source.toList.foldl (fun t entry => (t.insert entry.1 entry.2).2) target

/-- Probes from slot `i`, for at most `fuel` slots, for a key with the given hash whose text is
the wanted one. -/
def probeText (entries : Array Entry) (hash : UInt32) (wanted : Handle → Bool) :
    (fuel : Nat) → (i : Nat) → Option Handle
  | 0, _ => none
  | fuel + 1, i =>
    match entries[i]? with
    | none => none
    | some .empty => none
    | some .tombstone => probeText entries hash wanted fuel (nextSlot entries.size i)
    | some (.live key _) =>
      if key.hash = hash && wanted key.string then some key.string
      else probeText entries hash wanted fuel (nextSlot entries.size i)

/-- The key with a given hash and content, found by its content. -/
def findText? (t : Table) (hash : UInt32) (wanted : Handle → Bool) : Option Handle :=
  if t.used = 0 then none
  else probeText t.entries hash wanted t.entries.size (hash.toNat % t.entries.size)

/-- Drops the entries whose keys are not kept; the answer is their number. -/
def prune (t : Table) (keep : Handle → Bool) : Nat × Table :=
  let dropped := t.toList.countP (fun entry => !keep entry.1.string)
  (dropped, ⟨t.used, t.entries.map (Entry.prune keep)⟩)

/-- The handles a table holds: for each live entry its key, then what its value refers to. -/
def handles (t : Table) : List Handle :=
  t.toList.flatMap fun entry => entry.1.string :: entry.2.toHandle?.toList

end Table

end ScriptMachine
