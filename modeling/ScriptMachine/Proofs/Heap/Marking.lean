import ScriptMachine.Proofs.Heap.Reachability

/-!
# What a collection marks

Marking starts at the roots and traces marked objects until nothing is waiting. Its invariant:
every set mark is of a handle that can be reached, and what an object stores is marked unless
the object still waits. Once nothing waits, the marks are exactly the handles reached.
-/

namespace ScriptMachine.Marking

variable {m : Marking} {r x : Handle}

/-- Whether the mark of a handle is set. -/
def Marked (m : Marking) (r : Handle) : Prop := m.marks[r.slot]? = some true

/-- Marking keeps the number of marks. -/
@[simp] theorem size_mark : (m.mark r).marks.size = m.marks.size := by
  unfold mark
  split <;> simp

/-- Marking one handle sets its mark, if it has one, and no other. -/
theorem marked_mark : (m.mark r).Marked x ↔ m.Marked x ∨ (x = r ∧ r.slot < m.marks.size) := by
  unfold mark Marked
  split
  · next h =>
    obtain ⟨bound, unset⟩ := Array.getElem?_eq_some_iff.mp h
    by_cases hx : r.slot = x.slot
    · have hrx : r = x := Handle.slot_injective hx
      subst hrx
      simp [bound]
    · have hne : x ≠ r := fun e => hx (e ▸ rfl)
      simp [hx, hne]
  · next h =>
    refine ⟨.inl, ?_⟩
    rintro (hm | ⟨rfl, bound⟩)
    · exact hm
    · have hbit : m.marks[x.slot]? = some m.marks[x.slot] := Array.getElem?_eq_getElem bound
      cases hv : m.marks[x.slot] with
      | true => rw [hbit, hv]
      | false => exact absurd (hbit.trans (by rw [hv])) h

/-- Every mark that marking sets is of a handle. -/
theorem lt_of_markAll {i : Nat} (rs : List Handle) (hm : ∀ i, m.marks[i]? = some true → i < 2 ^ 32)
    (hi : (m.markAll rs).marks[i]? = some true) : i < 2 ^ 32 := by
  induction rs generalizing m with
  | nil => exact hm i hi
  | cons r rs ih =>
    refine ih (fun j hj => ?_) hi
    unfold mark at hj
    split at hj
    · by_cases hjr : r.slot = j
      · exact hjr ▸ r.index.toNat_lt
      · exact hm j (by simpa [Array.getElem?_setIfInBounds, hjr] using hj)
    · exact hm j hj

/-- A handle waits after marking if it waited before or has just been marked. -/
theorem mem_gray_mark : x ∈ (m.mark r).gray ↔ x ∈ m.gray ∨ (x = r ∧ m.marks[r.slot]? = some false) := by
  unfold mark
  split
  · next h => simp [h, or_comm]
  · next h => simp_all

/-- Marking handles keeps the number of marks. -/
@[simp] theorem size_markAll (rs : List Handle) : (m.markAll rs).marks.size = m.marks.size := by
  induction rs generalizing m with
  | nil => rfl
  | cons r rs ih => exact ih.trans size_mark

/-- Marking handles sets their marks, as far as they have one, and no other. -/
theorem marked_markAll (rs : List Handle) :
    (m.markAll rs).Marked x ↔ m.Marked x ∨ (x ∈ rs ∧ x.slot < m.marks.size) := by
  induction rs generalizing m with
  | nil => simp [markAll]
  | cons r rs ih =>
    have hstep : m.markAll (r :: rs) = (m.mark r).markAll rs := rfl
    rw [hstep, ih, marked_mark, size_mark, List.mem_cons]
    constructor
    · rintro ((h | ⟨rfl, h⟩) | ⟨h, hb⟩)
      · exact .inl h
      · exact .inr ⟨.inl rfl, h⟩
      · exact .inr ⟨.inr h, hb⟩
    · rintro (h | ⟨rfl | h, hb⟩)
      · exact .inl (.inl h)
      · exact .inl (.inr ⟨rfl, hb⟩)
      · exact .inr ⟨h, hb⟩

/-- A handle waits after marking exactly if it waited before or its mark was set just now. -/
theorem mem_gray_markAll (rs : List Handle) :
    x ∈ (m.markAll rs).gray ↔ x ∈ m.gray ∨ ((m.markAll rs).Marked x ∧ ¬ m.Marked x) := by
  induction rs generalizing m with
  | nil => simp [markAll]
  | cons r rs ih =>
    have hstep : m.markAll (r :: rs) = (m.mark r).markAll rs := rfl
    have hkeep : (m.mark r).Marked x → ((m.mark r).markAll rs).Marked x :=
      fun h => (marked_markAll rs).mpr (.inl h)
    have hgrow : m.Marked x → (m.mark r).Marked x := fun h => marked_mark.mpr (.inl h)
    have hnew : (x = r ∧ m.marks[r.slot]? = some false) ↔ ((m.mark r).Marked x ∧ ¬ m.Marked x) := by
      rw [marked_mark]
      constructor
      · rintro ⟨rfl, h⟩
        have hb := (Array.getElem?_eq_some_iff.mp h).1
        exact ⟨.inr ⟨rfl, hb⟩, by simp [Marked, h]⟩
      · rintro ⟨h | ⟨rfl, hb⟩, hn⟩
        · exact absurd h hn
        · refine ⟨rfl, ?_⟩
          have hbit : m.marks[x.slot]? = some m.marks[x.slot] := Array.getElem?_eq_getElem hb
          cases hv : m.marks[x.slot] with
          | true => exact absurd (hbit.trans (by rw [hv])) hn
          | false => rw [hbit, hv]
    rw [hstep, ih, mem_gray_mark, hnew]
    constructor
    · rintro ((hx | ⟨hx, hn⟩) | ⟨hx, hn⟩)
      · exact .inl hx
      · exact .inr ⟨hkeep hx, hn⟩
      · exact .inr ⟨hx, fun hm => hn (hgrow hm)⟩
    · rintro (hx | ⟨hx, hn⟩)
      · exact .inl (.inl hx)
      · by_cases hm : (m.mark r).Marked x
        · exact .inl (.inr ⟨hm, hn⟩)
        · exact .inr ⟨hx, hm⟩

/-- The invariant of tracing from `roots`: only what can be reached is marked, what waits is
marked, and so is everything that a marked object stores unless the object waits. -/
structure Traced (h : Heap) (roots : List Handle) (m : Marking) : Prop where
  size : m.marks.size = h.slots.size
  named : ∀ i, m.marks[i]? = some true → i < 2 ^ 32
  sound : ∀ r, m.Marked r → h.Reachable roots r
  waiting : ∀ r ∈ m.gray, m.Marked r
  rooted : ∀ r ∈ roots, r.slot < m.marks.size → m.Marked r
  closed : ∀ r, m.Marked r → r ∉ m.gray → ∀ o, h.object? r = some o →
    ∀ x, o.Stores x → x.slot < m.marks.size → m.Marked x

variable {h : Heap} {roots : List Handle}

/-- Marking the roots on clear marks establishes the invariant. -/
theorem Traced.start (roots : List Handle)
    (hbits : m.marks = Array.replicate h.slots.size false) (hgray : m.gray = []) :
    Traced h roots (m.markAll roots) := by
  have hsize : m.marks.size = h.slots.size := by simp [hbits]
  have hclear (r : Handle) : ¬ m.Marked r := by
    simp [Marked, hbits, Array.getElem?_replicate]
  have hmark (r : Handle) : (m.markAll roots).Marked r ↔ r ∈ roots ∧ r.slot < m.marks.size := by
    simp [marked_markAll, hclear r]
  have hnone (i : Nat) : m.marks[i]? ≠ some true := by
    simp [hbits, Array.getElem?_replicate]
  refine ⟨by simp [hsize], fun i hi => lt_of_markAll roots (fun j hj => absurd hj (hnone j)) hi,
    ?_, ?_, ?_, ?_⟩
  · intro r hr
    exact .root ((hmark r).mp hr).1
  · intro r hr
    rcases (mem_gray_markAll roots).mp hr with hr | hr
    · simp [hgray] at hr
    · exact hr.1
  · intro r hr hb
    exact (hmark r).mpr ⟨hr, by simpa using hb⟩
  · intro r hr hn
    exact absurd ((mem_gray_markAll roots).mpr (.inr ⟨hr, hclear r⟩)) hn

/-- A waiting handle without an object is dropped. -/
theorem Traced.drop {rest : List Handle} (ht : Traced h roots m) (hgray : m.gray = r :: rest)
    (hobject : h.object? r = none) : Traced h roots ⟨m.marks, rest⟩ := by
  refine ⟨ht.size, ht.named, ht.sound, fun x hx => ht.waiting x (hgray ▸ List.mem_cons_of_mem _ hx),
    ht.rooted, ?_⟩
  intro x hx hn o ho
  refine ht.closed x hx ?_ o ho
  rw [hgray, List.mem_cons, not_or]
  exact ⟨by rintro rfl; simp [hobject] at ho, hn⟩

/-- A waiting object is traced: what it stores gets marked. -/
theorem Traced.trace {rest : List Handle} {o : Object} (ht : Traced h roots m)
    (hgray : m.gray = r :: rest) (hobject : h.object? r = some o) :
    Traced h roots ((Marking.mk m.marks rest).markAll o.references) := by
  have hr : m.Marked r := ht.waiting r (hgray ▸ List.mem_cons_self)
  refine ⟨by simp [ht.size], fun i hi => lt_of_markAll (m := ⟨m.marks, rest⟩) _ ht.named hi, ?_, ?_,
    ?_, ?_⟩
  · intro x hx
    rcases (marked_markAll _).mp hx with hx | ⟨hx, -⟩
    · exact ht.sound x hx
    · exact .step (ht.sound r hr) hobject (Object.mem_references.mp hx)
  · intro x hx
    rcases (mem_gray_markAll _).mp hx with hx | hx
    · exact (marked_markAll _).mpr (.inl (ht.waiting x (hgray ▸ List.mem_cons_of_mem _ hx)))
    · exact hx.1
  · intro x hx hb
    exact (marked_markAll _).mpr (.inl (ht.rooted x hx (by simpa using hb)))
  · intro x hx hn o' ho' y hy hb
    rw [size_markAll] at hb
    rw [mem_gray_markAll, not_or] at hn
    -- an object marked before and not waiting is the one just traced, or was traced earlier
    have hxm : m.Marked x := by
      by_contra hxm
      exact hn.2 ⟨hx, hxm⟩
    by_cases hxr : x = r
    · subst hxr
      rw [hobject, Option.some.injEq] at ho'
      subst ho'
      exact (marked_markAll _).mpr (.inr ⟨Object.mem_references.mpr hy, hb⟩)
    · have hxg : x ∉ m.gray := by
        rw [hgray, List.mem_cons, not_or]
        exact ⟨hxr, hn.1⟩
      exact (marked_markAll _).mpr (.inl (ht.closed x hxm hxg o' ho' y hy hb))

/-- Tracing keeps the invariant, and ends with nothing waiting. -/
theorem Traced.run (journal : Journal) (ht : Traced h roots m) :
    Traced h roots (Marking.run h.slots journal m).1 ∧
      (Marking.run h.slots journal m).1.gray = [] := by
  fun_induction Marking.run h.slots journal m with
  | case1 journal m hgray => exact ⟨ht, hgray⟩
  | case2 journal m r rest hgray hobject ih => exact ih (ht.drop hgray hobject)
  | case3 journal m r rest hgray o hobject ih => exact ih (ht.trace hgray hobject)

/-- Once nothing waits, exactly what can be reached is marked, as far as there are marks. -/
theorem Traced.marked_iff (ht : Traced h roots m) (hgray : m.gray = []) :
    m.Marked x ↔ h.Reachable roots x ∧ x.slot < h.slots.size := by
  constructor
  · intro hx
    have hb := (Array.getElem?_eq_some_iff.mp hx).1
    exact ⟨ht.sound x hx, ht.size ▸ hb⟩
  · rintro ⟨hx, hb⟩
    induction hx with
    | root mem => exact ht.rooted _ mem (ht.size ▸ hb)
    | step _ object stores ih =>
      have hslot : ∀ {y : Handle} {o : Object}, h.object? y = some o → y.slot < h.slots.size := by
        intro y o hy
        by_contra hge
        simp [Heap.object?, Array.getElem?_eq_none (Nat.le_of_not_lt hge)] at hy
      exact ht.closed _ (ih (hslot object)) (by simp [hgray]) _ object _ stores (ht.size ▸ hb)

end ScriptMachine.Marking
