import ScriptMachine.Proofs.Heap.Updates
import ScriptMachine.Proofs.Parallel.Arrays
import ScriptMachine.Proofs.Parallel.Pairing

/-!
# Corresponding tables and heaps

Probing compares the keys it passes with the key it looks for, and paired handles compare alike on
both sides. So an operation on corresponding tables takes the same slots on both, answers alike and
leaves corresponding tables. The table of interned texts is not treated so: it is pruned by
collections, so it has one layout on the one side and another on the other.

Two heaps correspond under a pairing if they are sound and paired handles have corresponding
objects. What each side keeps alive stays paired when one of them, or both, collect, allocate or
intern a text: a new object is paired with the one that is made on the other side, and a text with
the one text of its content there.
-/

namespace ScriptMachine

namespace Pairing

variable {p : Pairing} {v w : Value} {k l : Key} {t u : Table} {es fs : Array Entry}

/-! ### Probing -/

/-- The slots of corresponding tables at one index. -/
theorem entries_getElem? (he : List.Forall₂ p.Entries es.toList fs.toList) (i : Nat) :
    Option.Rel p.Entries es[i]? fs[i]? := by
  rw [← Array.getElem?_toList, ← Array.getElem?_toList]
  exact forall₂_getElem? he i

/-- Paired entries are as many. -/
theorem entries_size (he : List.Forall₂ p.Entries es.toList fs.toList) : es.size = fs.size := by
  rw [← Array.length_toList, he.length_eq, Array.length_toList]

/-- A probe takes the same way on both sides. -/
theorem probe_eq (he : List.Forall₂ p.Entries es.toList fs.toList) (hk : p.Keys k l) (fuel i : Nat)
    (passed : Option Nat) : Table.probe es k fuel i passed = Table.probe fs l fuel i passed := by
  induction fuel generalizing i passed with
  | zero => rfl
  | succ fuel ih =>
    have hat := entries_getElem? he i
    rw [Table.probe, Table.probe, entries_size he]
    generalize es[i]? = e at hat
    generalize fs[i]? = f at hat
    cases hat with
    | none => rfl
    | some hat =>
      cases hat with
      | empty => rfl
      | tombstone => exact ih _ _
      | live key value =>
        have hsame := pairs_inj key.string hk.string
        simp only [hsame]
        split
        · rfl
        · exact ih _ _

/-- A key is looked for in the same slots. -/
theorem findSlot_eq (he : List.Forall₂ p.Entries es.toList fs.toList) (hk : p.Keys k l) :
    Table.findSlot es k = Table.findSlot fs l := by
  rw [Table.findSlot, Table.findSlot, entries_size he, hk.hash]
  exact probe_eq he hk _ _ _

/-- Looking a key up finds corresponding values. -/
theorem Tables.get? (h : p.Tables t u) (hk : p.Keys k l) :
    Option.Rel p.Values (t.get? k) (u.get? l) := by
  rw [Table.get?, Table.get?, h.used, findSlot_eq h.entries hk]
  split
  · exact .none
  · cases Table.findSlot u.entries l with
    | none => exact .none
    | some i =>
      have hat := entries_getElem? h.entries i
      rw [Option.bind_some, Option.bind_some]
      generalize t.entries[i]? = e at hat
      generalize u.entries[i]? = f at hat
      cases hat with
      | none => exact .none
      | some hat =>
        cases hat with
        | empty | tombstone => exact .none
        | live key value => exact .some value

/-! ### Changes -/

/-- Empty tables are paired. -/
theorem tables_empty : p.Tables Table.empty Table.empty := ⟨rfl, .nil⟩

/-- Tables stay corresponding when corresponding entries are put into one slot. -/
theorem Tables.set {e f : Entry} (h : p.Tables t u) (used i : Nat) (hef : p.Entries e f) :
    p.Tables ⟨used, t.entries.setIfInBounds i e⟩ ⟨used, u.entries.setIfInBounds i f⟩ := by
  refine ⟨rfl, ?_⟩
  rw [Array.toList_setIfInBounds, Array.toList_setIfInBounds]
  exact forall₂_set h.entries i hef

/-- Paired entries are placed in the same slot. -/
theorem Tables.place (h : p.Tables t u) (hk : p.Keys k l) (hv : p.Values v w) :
    p.Tables (t.place k v) (u.place l w) := by
  rw [Table.place, Table.place, findSlot_eq h.entries hk]
  split
  · exact h
  · rw [h.used]
    exact h.set _ _ (.live hk hv)

/-- Paired tables grow alike. -/
theorem Tables.resize (h : p.Tables t u) (capacity : Nat) :
    p.Tables (t.resize capacity) (u.resize capacity) := by
  have hstart : p.Tables ⟨0, Array.replicate capacity .empty⟩ ⟨0, Array.replicate capacity .empty⟩ :=
    ⟨rfl, List.forall₂_same.mpr fun e he => by
      rw [Array.toList_replicate] at he
      rw [List.eq_of_mem_replicate he]
      exact .empty⟩
  rw [Table.resize, Table.resize, ← Array.foldl_toList, ← Array.foldl_toList]
  refine List.rel_foldl (P := p.Tables) (R := p.Entries) (fun t u htu e f hef => ?_) hstart
    h.entries
  cases hef with
  | empty | tombstone => exact htu
  | live key value => exact htu.place key value

/-- Paired tables make room alike. -/
theorem Tables.reserve (h : p.Tables t u) : p.Tables t.reserve u.reserve := by
  rw [Table.reserve, Table.reserve, h.used, entries_size h.entries]
  split
  · exact h.resize _
  · exact h

/-- Setting a key answers alike and leaves corresponding tables. -/
theorem Tables.insert (h : p.Tables t u) (hk : p.Keys k l) (hv : p.Values v w) :
    (t.insert k v).1 = (u.insert l w).1 ∧ p.Tables (t.insert k v).2 (u.insert l w).2 := by
  have hr := h.reserve
  rw [Table.insert, Table.insert, findSlot_eq hr.entries hk]
  cases Table.findSlot u.reserve.entries l with
  | none => exact ⟨rfl, hr⟩
  | some i =>
    have hat := entries_getElem? hr.entries i
    have hset (used : Nat) := hr.set used i (.live hk hv)
    dsimp only
    rw [hr.used]
    generalize t.reserve.entries[i]? = e at hat
    generalize u.reserve.entries[i]? = f at hat
    cases hat with
    | none => exact ⟨rfl, hset _⟩
    | some hat => cases hat <;> exact ⟨rfl, hset _⟩

/-- Removing a key leaves corresponding tables. -/
theorem Tables.erase (h : p.Tables t u) (hk : p.Keys k l) : p.Tables (t.erase k).2 (u.erase l).2 := by
  rw [Table.erase, Table.erase, h.used, findSlot_eq h.entries hk]
  split
  · exact h
  · cases Table.findSlot u.entries l with
    | none => exact h
    | some i =>
      have hat := entries_getElem? h.entries i
      have hset := h.set u.used i .tombstone
      dsimp only
      generalize t.entries[i]? = e at hat
      generalize u.entries[i]? = f at hat
      cases hat with
      | none => exact h
      | some hat =>
        cases hat with
        | empty | tombstone => exact h
        | live _ _ => exact hset

/-- The live entries of corresponding tables, one by one. -/
theorem Tables.toList (h : p.Tables t u) :
    List.Forall₂ (fun e f => p.Keys e.1 f.1 ∧ p.Values e.2 f.2) t.toList u.toList := by
  refine List.rel_filterMap (fun e f hef => ?_) h.entries
  cases hef with
  | empty | tombstone => exact .none
  | live key value => exact .some ⟨key, value⟩

/-- Setting every entry of corresponding tables leaves corresponding tables. -/
theorem Tables.insertAll {t' u' : Table} (h : p.Tables t u) (h' : p.Tables t' u') :
    p.Tables (t.insertAll t') (u.insertAll u') :=
  List.rel_foldl (P := p.Tables) (fun _ _ htu _ _ hef => (htu.insert hef.1 hef.2).2) h h'.toList

end Pairing

namespace Pairing

variable {p q : Pairing} {h h' h₁ h₁' : Heap} {roots roots' : List Handle} {o o' : Object}
  {r r' x y : Handle} {t : Terms}

/-! ### Smaller and larger pairings -/

/-- The pairs of handles that are kept on both sides. -/
def keep (p : Pairing) (K L : Handle → Prop) : Pairing where
  Pairs x y := p.Pairs x y ∧ K x ∧ L y
  unique := ⟨fun _ _ _ h h' => p.unique.1 h.1 h'.1, fun _ _ _ h h' => p.unique.2 h.1 h'.1⟩
  terms := p.terms

/-- With one more pair, of handles that do not stand for others. -/
def pair (p : Pairing) (r r' : Handle) (h : ∀ x y, p.Pairs x y → (x = r ↔ y = r')) : Pairing where
  Pairs x y := p.Pairs x y ∨ (x = r ∧ y = r')
  unique := by
    constructor
    · rintro x x' y (hx | ⟨rfl, rfl⟩) (hx' | ⟨rfl, hy⟩)
      · exact p.unique.1 hx hx'
      · exact (h _ _ hx).mpr hy
      · exact ((h _ _ hx').mpr rfl).symm
      · rfl
    · rintro x y y' (hy | ⟨rfl, rfl⟩) (hy' | ⟨hx, rfl⟩)
      · exact p.unique.2 hy hy'
      · exact (h _ _ hy).mp hx
      · exact ((h _ _ hy').mp rfl).symm
      · rfl
  terms := p.terms

/-- What either of two pairings pairs, if they pair no handle with two. -/
def union (p q : Pairing) (h : ∀ x y x' y', p.Pairs x y → q.Pairs x' y' → (x = x' ↔ y = y')) :
    Pairing where
  Pairs x y := p.Pairs x y ∨ q.Pairs x y
  unique := by
    constructor
    · rintro x x' y (hx | hx) (hx' | hx')
      · exact p.unique.1 hx hx'
      · exact (h _ _ _ _ hx hx').mpr rfl
      · exact ((h _ _ _ _ hx' hx).mpr rfl).symm
      · exact q.unique.1 hx hx'
    · rintro x y y' (hy | hy) (hy' | hy')
      · exact p.unique.2 hy hy'
      · exact (h _ _ _ _ hy hy').mp rfl
      · exact ((h _ _ _ _ hy' hy).mp rfl).symm
      · exact q.unique.2 hy hy'
  terms := p.terms

/-- The same pairs on other terms. -/
def under (p : Pairing) (t : Terms) : Pairing := { p with terms := t }

/-- `q` has the pairs of `p` that are reached on both sides. -/
structure Kept (p q : Pairing) (h h' : Heap) (roots roots' : List Handle) : Prop where
  terms : q.terms = p.terms
  pairs : ∀ x y, p.Pairs x y → h.Reachable roots x → h'.Reachable roots' y → q.Pairs x y

/-- What a larger pairing pairs corresponds. -/
theorem Objects.mono (ho : p.Objects o o') (hterms : q.terms = p.terms)
    (hpairs : ∀ x y, p.Pairs x y → q.Pairs x y) : q.Objects o o' :=
  ho.carry hterms fun x y _ => hpairs x y

/-- A handle that an object stores is paired with one that the other object stores. -/
theorem Objects.stores_right (ho : p.Objects o o') (hx : o.Stores x) (hxy : p.Pairs x y) :
    o'.Stores y := by
  obtain ⟨y', hy', hpair⟩ := ho.stores hx
  exact p.unique.2 hpair hxy ▸ hy'

/-! ### Corresponding heaps -/

/-- Sound heaps where paired handles have corresponding objects, and only functions are paired that
may be. -/
structure Heaps (p : Pairing) (h h' : Heap) : Prop where
  left : h.Sound
  right : h'.Sound
  objects : ∀ x y, p.Pairs x y →
    ∃ o o', h.object? x = some o ∧ h'.object? y = some o' ∧ p.Objects o o'
  functions : ∀ x y f, p.Pairs x y → h.object? x = some (.function f) → p.terms.functions x y

/-- The objects of paired handles. -/
theorem Heaps.corresponds (hp : p.Heaps h h') (hxy : p.Pairs x y) (hx : h.object? x = some o)
    (hy : h'.object? y = some o') : p.Objects o o' := by
  obtain ⟨a, b, ha, hb, hab⟩ := hp.objects x y hxy
  obtain rfl := Option.some.inj (ha.symm.trans hx)
  obtain rfl := Option.some.inj (hb.symm.trans hy)
  exact hab

/-- Handles that are closed under following what objects store. -/
def Closed (h : Heap) (K : Handle → Prop) : Prop :=
  ∀ x o z, K x → h.object? x = some o → o.Stores z → K z

/-- What is reachable refers to what is reachable. -/
theorem closed_reachable : Closed h (h.Reachable roots) := fun _ _ _ hx ho hz => hx.step ho hz

/-- Corresponding heaps correspond from the other side. -/
theorem Heaps.symm (hp : p.Heaps h h') : p.symm.Heaps h' h where
  left := hp.right
  right := hp.left
  objects y x hyx := by
    obtain ⟨o, o', ho, ho', hcorr⟩ := hp.objects x y hyx
    exact ⟨o', o, ho', ho, hcorr.symm⟩
  functions y x f hyx hy := by
    obtain ⟨o, o', ho, ho', hcorr⟩ := hp.objects x y hyx
    obtain rfl := Option.some.inj (ho'.symm.trans hy)
    cases hcorr with
    | function => exact hp.functions x y _ hyx ho

/-- Closed parts of corresponding heaps stay corresponding where they are kept. -/
theorem Heaps.keep {K L : Handle → Prop} (hp : p.Heaps h h') (hK : Closed h K) (hL : Closed h' L)
    (hs : h₁.Sound) (hs' : h₁'.Sound) (hx : ∀ x, K x → h₁.object? x = h.object? x)
    (hy : ∀ y, L y → h₁'.object? y = h'.object? y) : (p.keep K L).Heaps h₁ h₁' := by
  refine ⟨hs, hs', fun x y hxy => ?_, fun x y f hxy hf =>
    hp.functions x y f hxy.1 ((hx x hxy.2.1).symm.trans hf)⟩
  obtain ⟨hpair, hkx, hly⟩ := hxy
  obtain ⟨o, o', ho, ho', hcorr⟩ := hp.objects x y hpair
  refine ⟨o, o', (hx x hkx).trans ho, (hy y hly).trans ho', hcorr.carry rfl fun z w hz hzw => ?_⟩
  exact ⟨hzw, hK x o z hkx ho hz, hL y o' w hly ho' (hcorr.stores_right hz hzw)⟩

/-- Heaps without open upvalues correspond on terms that ask for less. -/
theorem Heaps.under (hp : p.Heaps h h') (hlines : t.sameLines → p.terms.sameLines)
    (hclosed : ∀ x slot, h.object? x ≠ some (.upvalue (.onStack slot)))
    (hfunctions : ∀ x y f, p.Pairs x y → h.object? x = some (.function f) → t.functions x y) :
    (p.under t).Heaps h h' := by
  refine ⟨hp.left, hp.right, fun x y hxy => ?_, hfunctions⟩
  obtain ⟨o, o', ho, ho', hcorr⟩ := hp.objects x y hxy
  refine ⟨o, o', ho, ho', hcorr.weaken hlines (fun slot heq => ?_) fun _ _ _ => id⟩
  exact absurd (heq ▸ ho) (hclosed x slot)

/-- Heaps that correspond under two pairings do so under both together, if the one pairs code only
and no function that the other pairs: a text is the only one of its content. -/
theorem Heaps.union (hp : p.Heaps h h') (hq : q.Heaps h h') (hterms : q.terms = p.terms)
    (hcode : ∀ x y o, q.Pairs x y → h.object? x = some o → o.IsCode)
    (hapart : ∀ x y x' y' f, p.Pairs x y → q.Pairs x' y' → h.object? x = some (.function f) →
      x ≠ x' ∧ y ≠ y') : ∃ u : Pairing, u.terms = p.terms ∧ u.Heaps h h' ∧
        ∀ x y, u.Pairs x y ↔ p.Pairs x y ∨ q.Pairs x y := by
  have hunique (x y x' y' : Handle) (hxy : p.Pairs x y) (hxy' : q.Pairs x' y') :
      x = x' ↔ y = y' := by
    obtain ⟨o, a, ho, ha, hcorr⟩ := hp.objects x y hxy
    obtain ⟨o', b, ho', hb, hcorr'⟩ := hq.objects x' y' hxy'
    have hcoded := hcode x' y' o' hxy' ho'
    cases hcorr with
    | function =>
      obtain ⟨hne, hne'⟩ := hapart x y x' y' _ hxy hxy' ho
      exact iff_of_false hne hne'
    | @string s =>
      cases hcorr' with
      | @string s' =>
        constructor
        · rintro rfl
          obtain rfl := Object.string.inj (Option.some.inj (ho.symm.trans ho'))
          exact hp.right.interning.unique _ _ _ _ ha hb rfl
        · rintro rfl
          obtain rfl := Object.string.inj (Option.some.inj (ha.symm.trans hb))
          exact hp.left.interning.unique _ _ _ _ ho ho' rfl
      | _ =>
        refine iff_of_false (fun heq => ?_) fun heq => ?_
        · cases (heq ▸ ho).symm.trans ho'
        · cases (heq ▸ ha).symm.trans hb
    | _ =>
      -- the other pair is one of texts or of functions
      refine iff_of_false (fun heq => ?_) fun heq => ?_
      · obtain rfl := Option.some.inj ((heq ▸ ho).symm.trans ho')
        cases hcoded
      · obtain rfl := Option.some.inj ((heq ▸ ha).symm.trans hb)
        cases hcorr'
        cases hcoded
  refine ⟨p.union q hunique, rfl, ⟨hp.left, hp.right, fun x y hxy => ?_, fun x y f hxy hx => ?_⟩,
    fun _ _ => Iff.rfl⟩
  · rcases hxy with hxy | hxy
    · obtain ⟨o, o', ho, ho', hcorr⟩ := hp.objects x y hxy
      exact ⟨o, o', ho, ho', hcorr.mono rfl fun _ _ => .inl⟩
    · obtain ⟨o, o', ho, ho', hcorr⟩ := hq.objects x y hxy
      exact ⟨o, o', ho, ho', hcorr.mono hterms.symm fun _ _ => .inr⟩
  · rcases hxy with hxy | hxy
    · exact hp.functions x y f hxy hx
    · exact hterms ▸ hq.functions x y f hxy hx

/-- Corresponding objects may be paired. -/
theorem Heaps.pair (hp : p.Heaps h h') (hne : ∀ x y, p.Pairs x y → (x = r ↔ y = r'))
    (ho : h.object? r = some o) (ho' : h'.object? r' = some o') (hcorr : p.Objects o o')
    (hfunction : ∀ f, o = .function f → p.terms.functions r r') :
    (p.pair r r' hne).Heaps h h' := by
  have hmono {a b : Object} (hab : p.Objects a b) : (p.pair r r' hne).Objects a b :=
    hab.mono rfl fun _ _ => .inl
  refine ⟨hp.left, hp.right, fun x y hxy => ?_, fun x y f hxy hx => ?_⟩
  · rcases hxy with hxy | ⟨rfl, rfl⟩
    · obtain ⟨a, b, ha, hb, hab⟩ := hp.objects x y hxy
      exact ⟨a, b, ha, hb, hmono hab⟩
    · exact ⟨o, o', ho, ho', hmono hcorr⟩
  · rcases hxy with hxy | ⟨rfl, rfl⟩
    · exact hp.functions x y f hxy hx
    · exact hfunction f (Option.some.inj (ho.symm.trans hx))

/-- Where both sides keep what is reached, the heaps stay corresponding. -/
theorem Heaps.carry (hp : p.Heaps h h') (hs : h₁.Sound) (hs' : h₁'.Sound)
    (hx : ∀ x, h.Reachable roots x → h₁.object? x = h.object? x)
    (hy : ∀ y, h'.Reachable roots' y → h₁'.object? y = h'.object? y) :
    ∃ q, Heaps q h₁ h₁' ∧ p.Kept q h h' roots roots' :=
  ⟨_, hp.keep closed_reachable closed_reachable hs hs' hx hy, rfl, fun _ _ h hx hy => ⟨h, hx, hy⟩⟩

/-- Objects that are allocated on both sides are paired. -/
theorem Heaps.alloc (hp : p.Heaps h h') (ha : Heap.Allocated h roots o r h₁)
    (ha' : Heap.Allocated h' roots' o' r' h₁') (hs : h₁.Sound) (hs' : h₁'.Sound)
    (ho : p.Objects o o') (hfunction : ∀ f, o = .function f → p.terms.functions r r') :
    ∃ q, Heaps q h₁ h₁' ∧ q.Pairs r r' ∧
      p.Kept q h h' (roots ++ o.references) (roots' ++ o'.references) := by
  have hkept := hp.keep closed_reachable closed_reachable hs hs' ha.kept ha'.kept
  -- new handles are none of those that were reached
  have hne (x y : Handle) (hxy : (p.keep (h.Reachable (roots ++ o.references))
      (h'.Reachable (roots' ++ o'.references))).Pairs x y) : x = r ↔ y = r' :=
    iff_of_false (ha.fresh x hxy.2.1) (ha'.fresh y hxy.2.2)
  refine ⟨_, hkept.pair hne ha.new ha'.new (ho.carry rfl fun z w hz hzw => ?_) hfunction,
    .inr ⟨rfl, rfl⟩, rfl, fun x y hxy hx hy => .inl ⟨hxy, hx, hy⟩⟩
  have hw := ho.stores_right hz hzw
  exact ⟨hzw, .root (List.mem_append_right _ (Object.mem_references.mpr hz)),
    .root (List.mem_append_right _ (Object.mem_references.mpr hw))⟩

/-- A content that is interned on both sides has paired texts. -/
theorem Heaps.intern {chars : String} (hp : p.Heaps h h')
    (hi : Heap.InternedAs h roots chars r h₁) (hi' : Heap.InternedAs h' roots' chars r' h₁') :
    ∃ q, Heaps q h₁ h₁' ∧ q.Pairs r r' ∧ p.Kept q h h' roots roots' := by
  have hkept := hp.keep closed_reachable closed_reachable hi.sound hi'.sound hi.kept hi'.kept
  have hne (x y : Handle)
      (hxy : (p.keep (h.Reachable roots) (h'.Reachable roots')).Pairs x y) : x = r ↔ y = r' := by
    obtain ⟨a, b, ha, hb, hab⟩ := hkept.objects x y hxy
    constructor
    · rintro rfl
      obtain rfl := Option.some.inj (hi.new.symm.trans ha)
      cases hab
      exact hi'.sound.interning.unique _ _ _ _ hb hi'.new rfl
    · rintro rfl
      obtain rfl := Option.some.inj (hi'.new.symm.trans hb)
      cases hab
      exact hi.sound.interning.unique _ _ _ _ ha hi.new rfl
  exact ⟨_, hkept.pair hne hi.new hi'.new .string nofun, .inr ⟨rfl, rfl⟩, rfl,
    fun x y hxy hx hy => .inl ⟨hxy, hx, hy⟩⟩

/-- The account, the pacing and the journal do not matter. -/
theorem Heaps.alike (hp : p.Heaps h h') (ha : h.Alike h₁) (ha' : h'.Alike h₁') : p.Heaps h₁ h₁' := by
  refine ⟨hp.left.congr ha, hp.right.congr ha', fun x y hxy => ?_, fun x y f hxy hx => ?_⟩
  · rw [ha.object?, ha'.object?]
    exact hp.objects x y hxy
  · exact hp.functions x y f hxy ((ha.object? x).symm.trans hx)

/-- Paired objects that are no texts may be replaced by corresponding ones. -/
theorem Heaps.replace {a b : Object} (hp : p.Heaps h h') (hxy : p.Pairs x y)
    (hx : h.object? x = some o) (hy : h'.object? y = some o') (hab : p.Objects a b)
    (ho : ∀ s, o ≠ .string s) (hnew : ∀ s, a ≠ .string s) (hfunction : ∀ f, a ≠ .function f) :
    p.Heaps (h.replace x a) (h'.replace y b) := by
  have ho' (s : Interned) : o' ≠ .string s := by
    rintro rfl
    have hcorr := hp.corresponds hxy hx hy
    cases hcorr
    exact ho _ rfl
  have hnew' (s : Interned) : b ≠ .string s := by
    rintro rfl
    cases hab
    exact hnew _ rfl
  obtain ⟨hs, hobject⟩ := hp.left.replace hx ho hnew
  obtain ⟨hs', hobject'⟩ := hp.right.replace hy ho' hnew'
  refine ⟨hs, hs', fun z w hzw => ?_, fun z w f hzw hz => ?_⟩
  · have hsame := pairs_inj hzw hxy
    rw [hobject, hobject']
    by_cases hz : z = x
    · rw [if_pos hz, if_pos (hsame.mp hz)]
      exact ⟨a, b, rfl, rfl, hab⟩
    · rw [if_neg hz, if_neg (mt hsame.mpr hz)]
      exact hp.objects z w hzw
  · rw [hobject] at hz
    split at hz
    · exact absurd (Option.some.inj hz) (hfunction f)
    · exact hp.functions z w f hzw hz

/-! ### What paired handles lead to -/

/-- A paired handle leads to live objects only, on the one side. -/
theorem Heaps.covers (hp : p.Heaps h h')
    (hxy : p.Pairs x y) : h.Covers [x] := by
  have hreach (z : Handle) (hz : h.Reachable [x] z) : ∃ w, p.Pairs z w := by
    induction hz with
    | root mem => exact List.mem_singleton.mp mem ▸ ⟨y, hxy⟩
    | step _ object stores ih =>
      obtain ⟨w, hw⟩ := ih
      obtain ⟨a, b, ha, -, hab⟩ := hp.objects _ w hw
      obtain rfl := Option.some.inj (ha.symm.trans object)
      obtain ⟨w', -, hw'⟩ := hab.stores stores
      exact ⟨w', hw'⟩
  intro z hz
  obtain ⟨w, hw⟩ := hreach z hz
  obtain ⟨a, -, ha, -⟩ := hp.objects z w hw
  exact Heap.isLive_iff.mpr ⟨a, ha⟩

/-- What paired roots reach is paired with what they reach on the other side. -/
theorem Heaps.exists_reached (hp : p.Heaps h h')
    (hroots : ∀ x ∈ roots, ∃ y ∈ roots', p.Pairs x y) (hx : h.Reachable roots x) :
    ∃ y, p.Pairs x y ∧ h'.Reachable roots' y := by
  induction hx with
  | root mem =>
    obtain ⟨y, hy, hxy⟩ := hroots _ mem
    exact ⟨y, hxy, .root hy⟩
  | step _ object stores ih =>
    obtain ⟨y, hxy, hy⟩ := ih
    obtain ⟨o, o', ho, ho', hcorr⟩ := hp.objects _ y hxy
    obtain rfl := Option.some.inj (ho.symm.trans object)
    obtain ⟨z, hz, hpair⟩ := hcorr.stores stores
    exact ⟨z, hpair, hy.step ho' hz⟩

/-- Paired handles are both reached if one of them is. -/
theorem Heaps.reach (hp : p.Heaps h h')
    (hroots : ∀ x ∈ roots, ∃ y ∈ roots', p.Pairs x y) (hxy : p.Pairs x y)
    (hx : h.Reachable roots x) : h'.Reachable roots' y := by
  obtain ⟨y', hpair, hy⟩ := hp.exists_reached hroots hx
  exact p.unique.2 hpair hxy ▸ hy

/-- Roots that are paired are known to the collector. -/
theorem Heaps.covers_roots (hp : p.Heaps h h')
    (hroots : ∀ x ∈ roots, ∃ y ∈ roots', p.Pairs x y) : h.Covers roots :=
  Heap.covers_iff.mpr fun x hx => by
    obtain ⟨y, -, hxy⟩ := hroots x hx
    exact hp.covers hxy

end Pairing

end ScriptMachine
