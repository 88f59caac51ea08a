import ScriptMachine.Proofs.Session.Constructing

/-!
# What a class has under a name

A class has at most one method under each name, and looking for the method by the handle of the name
finds it. Inheriting puts the methods of the superclass before what there was, adding a method
changes what is found under its name, and as long as nothing is done to the table of the class, the
same is found under every name.
-/

namespace ScriptMachine

/-- Whether a handle is the one of a text. -/
def Heap.reads (h : Heap) (x : Handle) (text : String) : Bool :=
  match h.object? x with
  | some (.string s) => s.chars = text
  | _ => false

/-- The method that a class has under a name, inherited ones included. -/
def Machine.method? (m : Machine) (class_ : Handle) (name : String) : Option Value :=
  match m.heap.object? class_ with
  | some (.class_ c) => (c.methods.toList.find? fun e => m.heap.reads e.1.string name).map Prod.snd
  | _ => none

/-- A handle reads as a text if it is the string of it. -/
theorem Heap.reads_iff {h : Heap} {x : Handle} {text : String} :
    h.reads x text = true ↔ ∃ s, h.object? x = some (.string s) ∧ s.chars = text := by
  unfold reads
  split
  · next s hs => simp [hs]
  · next hno =>
    exact ⟨fun hfalse => (Bool.false_ne_true hfalse).elim, fun ⟨s, hs, _⟩ => absurd hs (hno s)⟩

/-! ### Tables whose keys are texts -/

/-- What a table has under a text. -/
def Heap.under? (h : Heap) (t : Table) (name : String) : Option Value :=
  (t.toList.find? fun e => h.reads e.1.string name).map Prod.snd

/-- What there is under a text is a value of the table. -/
theorem Heap.live_of_under? {h : Heap} {t : Table} {name : String} {v : Value}
    (hv : h.under? t name = some v) : ∃ k, Entry.live k v ∈ t.entries := by
  obtain ⟨e, he, rfl⟩ := Option.map_eq_some_iff.mp hv
  exact ⟨e.1, Table.mem_toList.mp (List.mem_of_find?_eq_some he)⟩

/-- What there is under a text depends on the keys of the table only. -/
theorem Heap.under?_congr {h h' : Heap} {t : Table} {name : String}
    (hsame : ∀ x, t.Stores x → h'.object? x = h.object? x) : h'.under? t name = h.under? t name := by
  rw [under?, under?, ← List.head?_filter, ← List.head?_filter]
  congr 2
  refine List.filter_congr fun e he => ?_
  rw [reads, reads, hsame _ (.key (Table.mem_toList.mp he) rfl)]

namespace World.TableOk

variable {W : World} {h : Heap} {c : Content} {t : Table} {name : String} {v : Value} {z : Handle}
  {s : Interned}

/-- The entries of a table have different texts. -/
theorem under?_eq_some_iff (ht : W.TableOk c t) (hs : h.Sound) : h.under? t name = some v ↔
    ∃ k, Entry.live k v ∈ t.entries ∧ h.reads k.string name = true := by
  rw [Heap.under?, Option.map_eq_some_iff]
  constructor
  · rintro ⟨e, he, rfl⟩
    have hreads := List.find?_some he
    exact ⟨e.1, Table.mem_toList.mp (List.mem_of_find?_eq_some he), hreads⟩
  · rintro ⟨k, hk, hreads⟩
    obtain ⟨e, he⟩ : ∃ e, t.toList.find? (fun e => h.reads e.1.string name) = some e :=
      Option.isSome_iff_exists.mp (List.find?_isSome.mpr ⟨(k, v), Table.mem_toList.mpr hk, hreads⟩)
    have hmem := Table.mem_toList.mp (List.mem_of_find?_eq_some he)
    have hfound := List.find?_some he
    obtain ⟨s, hs', hchars⟩ := Heap.reads_iff.mp hfound
    obtain ⟨s', hs'', hchars'⟩ := Heap.reads_iff.mp hreads
    -- both keys are for the one text, and a table has one value for it
    have hsame := hs.interning.unique _ _ _ _ hs' hs'' (hchars.trans hchars'.symm)
    have hagrees := ht.agrees (ht.key k v hk)
    have hget := (ht.valid.get?_eq_some_iff hagrees).mpr ⟨k, hk, rfl⟩
    have hget' := (ht.valid.get?_eq_some_iff hagrees).mpr ⟨e.1, hmem, hsame⟩
    exact ⟨e, he, Option.some.inj (hget'.symm.trans hget)⟩

/-- Looking by the handle of a text finds what there is under the text. -/
theorem get?_eq_under? (ht : W.TableOk c t) (hs : h.Sound) (hf : W.Fits h)
    (hz : h.object? z = some (.string s)) (hkey : h.key z = .ok ⟨z, s.hash⟩) :
    t.get? ⟨z, s.hash⟩ = h.under? t s.chars := by
  refine Option.ext fun v => ?_
  rw [ht.valid.get?_eq_some_iff (ht.agrees_of_key hf hkey), ht.under?_eq_some_iff hs]
  refine exists_congr fun k => and_congr_right fun hk => ?_
  rw [Heap.reads_iff]
  constructor
  · rintro rfl
    exact ⟨s, hz, rfl⟩
  · rintro ⟨s', hs', hchars⟩
    exact hs.interning.unique _ _ _ _ hs' hz hchars

/-- What there is under a text depends on the entries only. -/
theorem under?_of_mem {V : World} {h' : Heap} {d : Content} {t' : Table} (ht : W.TableOk c t)
    (hs : h.Sound) (ht' : V.TableOk d t') (hs' : h'.Sound)
    (hsame : ∀ x text, h'.reads x text = h.reads x text)
    (hmem : ∀ k v, (k, v) ∈ t'.toList ↔ (k, v) ∈ t.toList) : h'.under? t' name = h.under? t name := by
  refine Option.ext fun v => ?_
  rw [ht'.under?_eq_some_iff hs', ht.under?_eq_some_iff hs]
  simp only [← Table.mem_toList, hmem, hsame]

/-- Inserting changes what there is under the text of the key. -/
theorem under?_insert {V : World} {h' : Heap} {d : Content} {key : Key} {text : String}
    (ht : W.TableOk c t) (hs : h.Sound) (hf : W.Fits h) (ht' : V.TableOk d (t.insert key v).2)
    (hs' : h'.Sound) (hsame : ∀ x text, h'.reads x text = h.reads x text)
    (hkey : h.key z = .ok key) (hreads : h.reads z text = true) :
    h'.under? (t.insert key v).2 name = if name = text then some v else h.under? t name := by
  have hstring : key.string = z := Heap.string_of_key hkey
  have hmem := (ht.valid.insert (ht.agrees_of_key hf hkey) v).mem
  obtain ⟨s, hz, hchars⟩ := Heap.reads_iff.mp hreads
  refine Option.ext fun w => ?_
  rw [ht'.under?_eq_some_iff hs']
  simp only [hsame]
  constructor
  · rintro ⟨k, hk, hreads'⟩
    obtain ⟨s', hs', hchars'⟩ := Heap.reads_iff.mp hreads'
    rcases (hmem k w).mp hk with ⟨rfl, rfl⟩ | ⟨hold, hne⟩
    · rw [hstring, hz, Option.some.injEq, Object.string.injEq] at hs'
      rw [if_pos (by rw [← hchars', ← hchars, hs'])]
    · rw [if_neg ?_]
      · exact (ht.under?_eq_some_iff hs).mpr ⟨k, hold, hreads'⟩
      · rintro rfl
        exact hne ((hs.interning.unique _ _ _ _ hs' hz (hchars'.trans hchars.symm)).trans
          hstring.symm)
  · split
    · rintro heq
      next hname =>
      obtain rfl := Option.some.inj heq
      exact ⟨key, (hmem key v).mpr (.inl ⟨rfl, rfl⟩), by rw [hstring, hname, hreads]⟩
    · next hname =>
      intro hw
      obtain ⟨k, hk, hreads'⟩ := (ht.under?_eq_some_iff hs).mp hw
      refine ⟨k, (hmem k w).mpr (.inr ⟨hk, fun heq => hname ?_⟩), hreads'⟩
      obtain ⟨s', hs', hchars'⟩ := Heap.reads_iff.mp hreads'
      rw [heq, hstring, hz, Option.some.injEq, Object.string.injEq] at hs'
      rw [← hchars', ← hchars, hs']

end World.TableOk

/-- The key of a text. -/
theorem Heap.key_eq {h : Heap} {z : Handle} {s : Interned} (hz : h.object? z = some (.string s)) :
    h.key z = .ok ⟨z, s.hash⟩ := by
  rw [Heap.key, Heap.string, Heap.object, hz]
  rfl

namespace Machine

variable {m m' : Machine} {W W' : World} {O O' : Outline} {r x z : Handle} {c : ClassObject}
  {name text : String} {v : Value} {methods : Table} {new : List Handle}

/-- What is kept alive is known. -/
theorem Shows.knows_of_keeps (hm : m.Shows W O) (hx : m.Keeps x) : W.Knows x :=
  hm.fits.knows (fun _ hr => hm.knows hm.lists hr) hx

/-- A known class has closures under texts. -/
theorem Shows.tableOk (hm : m.Shows W O) (hx : W.Knows x)
    (hc : m.heap.object? x = some (.class_ c)) : W.TableOk .closure c.methods := by
  obtain ⟨t, ht⟩ := hx
  obtain ⟨o, ho, hdescribes⟩ := hm.fits _ _ ht
  obtain rfl := Option.some.inj (ho.symm.trans hc)
  cases hdescribes with
  | class_ _ methods => exact methods

/-- The keys of a known class are texts. -/
theorem Shows.string_of_live {k : Key} (hm : m.Shows W O) (ht : W.TableOk .closure methods)
    (hk : Entry.live k v ∈ methods.entries) : ∃ s, m.heap.object? k.string = some (.string s) := by
  obtain ⟨chars, htext, -⟩ := ht.key k v hk
  obtain ⟨o, ho, hdescribes⟩ := hm.fits _ _ htext
  cases hdescribes with
  | text => exact ⟨_, ho⟩

/-- What a class has under a name is what its table has for the text. -/
theorem Shows.method?_eq_some_iff (hm : m.Shows W O) (hx : W.Knows x)
    (hc : m.heap.object? x = some (.class_ c)) : m.method? x name = some v ↔
      ∃ k, Entry.live k v ∈ c.methods.entries ∧ m.heap.reads k.string name = true := by
  rw [method?, hc]
  exact (hm.tableOk hx hc).under?_eq_some_iff hm.sound

/-- Looking for a method by the handle of its name finds what the class has under the name. -/
theorem Shows.findMethod_eq {s : Interned} (hm : m.Shows W O) (hx : W.Knows x)
    (hc : m.heap.object? x = some (.class_ c)) (hs : m.heap.object? z = some (.string s)) :
    Exec.findMethod x z m = .ok (m.method? x s.chars) m := by
  have hkey := Heap.key_eq hs
  have hclass : m.heap.class_ x = .ok c := by rw [Heap.class_, Heap.object, hc]
  have hfound : Exec.findMethod x z m = .ok (c.methods.get? ⟨z, s.hash⟩) m :=
    (Exec.bind_eq (Exec.readHeap_eq hkey)).trans ((Exec.bind_eq (Exec.readHeap_eq hclass)).trans rfl)
  rw [hfound, (hm.tableOk hx hc).get?_eq_under? hm.sound hm.fits hs hkey, method?, hc]
  rfl

/-- A text that is there stays the same text. -/
theorem reads_of_lasts (hl : m.heap.Lasts m'.heap z)
    (hs : ∃ s, m.heap.object? z = some (.string s)) : m'.heap.reads z text = m.heap.reads z text := by
  obtain ⟨s, hs⟩ := hs
  rw [Heap.reads, Heap.reads, hl.object .self hs rfl, hs]

/-- What a class has is the same where the class is retained. -/
theorem Shows.method?_of_retains (hm : m.Shows W O) (hx : W.Knows x) (hr : m.Retains new m')
    (hnew : x ∉ new) (hc : m'.heap.object? x = some (.class_ c)) :
    m'.method? x name = m.method? x name := by
  have hbefore := hr.heap.object x _ hc rfl hnew
  have ht := hm.tableOk hx hbefore
  rw [method?, method?, hc, hbefore]
  dsimp only
  rw [← List.head?_filter, ← List.head?_filter]
  congr 2
  refine List.filter_congr fun e he => ?_
  have hlive := Table.mem_toList.mp he
  exact reads_of_lasts (hr.heap.stored x _ _ hc rfl hnew (.classMethod (.key hlive rfl)))
    (hm.string_of_live ht hlive)

/-- Texts are not reshaped. -/
theorem Reshaped.reads (hr : m.Reshaped r c methods m') :
    m'.heap.reads z text = m.heap.reads z text := by
  have hobjects := hr.objects z
  split at hobjects
  · next heq => rw [Heap.reads, Heap.reads, hobjects, heq, hr.before]
  · rw [Heap.reads, Heap.reads, hobjects]

/-- With other methods a class has under a name what its new table has for the text. -/
theorem Reshaped.method?_eq_some_iff (hr : m.Reshaped r c methods m') (hm' : m'.Shows W' O')
    (hknows : W'.Knows r) : m'.method? r name = some v ↔
      ∃ k, Entry.live k v ∈ methods.entries ∧ m.heap.reads k.string name = true := by
  have hobject := hr.objects r
  rw [if_pos rfl] at hobject
  rw [hm'.method?_eq_some_iff hknows hobject]
  exact exists_congr fun k => and_congr_right fun hk => by rw [hr.reads]

/-- Inheriting puts what the superclass has before what the class has. -/
theorem Reshaped.method?_insertAll {s : ClassObject} (hm : m.Shows W O) (hm' : m'.Shows W' O')
    (hr : m.Reshaped r c (c.methods.insertAll s.methods) m') (hs : m.heap.object? x = some (.class_ s))
    (hx : W.Knows x) (hknows : W.Knows r) (hknows' : W'.Knows r) :
    m'.method? r name = (m.method? x name).or (m.method? r name) := by
  have ht := hm.tableOk hknows hr.before
  have hts := hm.tableOk hx hs
  obtain ⟨-, -, hmem⟩ := ht.valid.insertAll ht.hashedBy hts.valid hts.hashedBy
  refine Option.ext fun v => ?_
  rw [hr.method?_eq_some_iff hm' hknows', Option.or_eq_some_iff, hm.method?_eq_some_iff hx hs,
    hm.method?_eq_some_iff hknows hr.before]
  have hnone (k : Key) (hreads : m.heap.reads k.string name = true) :
      m.method? x name = none ↔ ¬ s.methods.Has k := by
    rw [Option.eq_none_iff_forall_ne_some]
    obtain ⟨text, htext, hchars⟩ := Heap.reads_iff.mp hreads
    constructor
    · rintro hno ⟨k', v', hk', heq⟩
      exact hno v' ((hm.method?_eq_some_iff hx hs).mpr ⟨k', hk', heq ▸ hreads⟩)
    · intro hno v' hv'
      obtain ⟨k', hk', hreads'⟩ := (hm.method?_eq_some_iff hx hs).mp hv'
      obtain ⟨text', htext', hchars'⟩ := Heap.reads_iff.mp hreads'
      exact hno ⟨k', v', hk', hm.sound.interning.unique _ _ _ _ htext' htext
        (hchars'.trans hchars.symm)⟩
  constructor
  · rintro ⟨k, hk, hreads⟩
    rcases (hmem k v).mp hk with hinherited | ⟨hown, hno⟩
    · exact .inl ⟨k, hinherited, hreads⟩
    · exact .inr ⟨(hnone k hreads).mpr hno, k, hown, hreads⟩
  · rintro (⟨k, hk, hreads⟩ | ⟨hno, k, hk, hreads⟩)
    · exact ⟨k, (hmem k v).mpr (.inl hk), hreads⟩
    · exact ⟨k, (hmem k v).mpr (.inr ⟨hk, (hnone k hreads).mp hno⟩), hreads⟩

/-- Adding a method changes what is found under its name. -/
theorem Reshaped.method?_insert {key : Key} (hm : m.Shows W O) (hm' : m'.Shows W' O')
    (hr : m.Reshaped r c (c.methods.insert key v).2 m') (hkey : m.heap.key z = .ok key)
    (hreads : m.heap.reads z text = true) (hknows : W.Knows r) (hknows' : W'.Knows r) :
    m'.method? r name = if name = text then some v else m.method? r name := by
  have hobject := hr.objects r
  rw [if_pos rfl] at hobject
  have ht := hm.tableOk hknows hr.before
  have ht' := hm'.tableOk hknows' hobject
  rw [method?, method?, hobject, hr.before]
  exact ht.under?_insert hm.sound hm.fits ht' hm'.sound (fun x text => hr.reads) hkey hreads

end Machine

end ScriptMachine
