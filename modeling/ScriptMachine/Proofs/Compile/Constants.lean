import ScriptMachine.Proofs.Compile.Emission

/-!
# Constants

Interning a text may collect garbage, which everything the drafts refer to survives. A constant is
found again in the pool or added to it; an index that an instruction is given stays an index of
what it was made for.
-/

namespace ScriptMachine.Compile

variable {W W' V : World} {s s' : State} {before : Heap} {d : Draft} {v : Value}

/-! ### Other heaps -/

/-- A draft keeps its name and its constants alive. -/
theorem Draft.mem_handles {r : Handle} :
    r ∈ d.handles ↔ d.name = some r ∨ ∃ v ∈ d.chunk.constants, v.toHandle? = some r := by
  simp [Draft.handles]

/-- What the caller's objects lead to is what it was before. -/
theorem State.Live.reachable (hl : s.Live before) {x : Handle} (hx : before.Reachable s.outer x) :
    s.heap.Reachable s.outer x := (Heap.reachable_congr hl.kept).mpr hx

/-- A heap that has what is kept alive may take the place of the heap. -/
theorem State.Live.reheap {h' : Heap} (hl : s.Live before) (hs : h'.Sound)
    (hk : ∀ x, s.heap.Reachable s.roots x → h'.object? x = s.heap.object? x)
    (hm : ∀ x o, h'.object? x = some o → s.heap.object? x = some o ∨ IsCompiled o)
    (hr : s.heap.Retains [] h') : ({ s with heap := h' } : State).Live before := by
  refine ⟨hs, hl.covers.congr hk, ?_, ?_, fun x o hx => (hm x o hx).elim (hl.made x o) .inr,
    hl.retains.trans hr⟩
  · intro d hd r hr
    obtain ⟨text, htext⟩ := hl.named d hd r hr
    refine ⟨text, (hk r (.root ?_)).trans htext⟩
    exact mem_roots.mpr (.inl ⟨d, hd, Draft.mem_handles.mpr (.inl hr)⟩)
  · intro x hx
    have hreach : s.heap.Reachable s.roots x :=
      (hl.reachable hx).mono fun r hr => mem_roots.mpr (.inr hr)
    exact (hk x hreach).trans (hl.kept x hx)

/-- A draft is in order in every world that knows what it refers to. -/
theorem DraftOk.congr (hd : DraftOk W d)
    (hk : ∀ r ∈ d.handles, ∀ t, W r = some t → V r = some t) :
    DraftOk V d ∧ d.chunk.constants.toList.map V.typeOf = d.chunk.constants.toList.map W.typeOf := by
  have hconstant (v : Value) (hv : v ∈ d.chunk.constants) (r : Handle)
      (hr : v.toHandle? = some r) : ∃ t, W r = some t ∧ V r = some t := by
    obtain ⟨t, ht⟩ := hd.constants v hv r hr
    exact ⟨t, ht, hk r (Draft.mem_handles.mpr (.inr ⟨v, hv, hr⟩)) t ht⟩
  refine ⟨⟨?_, ?_, hd.pool, hd.few, hd.lines, hd.slots, hd.variables_, hd.settled, hd.inhabited,
    hd.depth⟩, List.map_congr_left fun v hv => ?_⟩
  · intro r hr
    obtain ⟨chars, ht⟩ := hd.name r hr
    exact ⟨chars, hk r (Draft.mem_handles.mpr (.inl hr)) _ ht⟩
  · intro v hv r hr
    obtain ⟨t, -, ht⟩ := hconstant v hv r hr
    exact ⟨t, ht⟩
  · rw [World.typeOf, World.typeOf]
    cases hr : v.toHandle? with
    | none => rfl
    | some r =>
      obtain ⟨t, ht, ht'⟩ := hconstant v (Array.mem_toList_iff.mp hv) r hr
      exact ht'.trans ht.symm

/-- Another heap that the world has grown to fit changes nothing of the picture. -/
theorem carries_reheap {h' : Heap} {r : Handle} {t : ObjectType} (hl : s.Live before)
    (hr : s.Ready W) (hf : V.Fits h') (hg : World.Grows W s.heap s.roots r t V)
    (hk : ∀ x, s.heap.Reachable s.roots x → h'.object? x = s.heap.object? x) :
    Carries before W V s { s with heap := h' } [] := by
  have hdraft (d : Draft) (hd : d ∈ s.drafts) := (hr.drafts d hd).congr (V := V)
    fun x hx u hu => hg.kept x u (.root (State.mem_roots.mpr (.inl ⟨d, hd, hx⟩))) hu
  have hsame (d : Draft) (hd : d ∈ s.drafts) : Outgrown W V d d :=
    ⟨⟨rfl, rfl, rfl, rfl, (hdraft d hd).2 ▸ List.prefix_rfl, List.prefix_rfl⟩, rfl, rfl, .refl _⟩
  refine ⟨⟨⟨hf, hr.clean, hr.tokens, fun d hd => (hdraft d hd).1, hr.enclosing, hr.captures,
    hr.global, hr.super,
    hr.planted.congr (fun v hv r hr => .root (State.constants_roots v hv r hr)) hk⟩, rfl, (hsame s.draft List.mem_cons_self).toGrown, by simp, ?_, rfl, ?_⟩, .refl _⟩
  · exact List.forall₂_same.mpr fun d hd => hsame d (List.mem_cons_of_mem _ hd)
  · intro x u hx hu
    exact hg.kept x u ((hl.reachable hx).mono fun r hr => State.mem_roots.mpr (.inr hr)) hu

/-! ### Interning -/

/-- A text was interned. -/
def State.Interned (s : State) (chars : String) : Handle → State → Prop := fun r s' =>
  ∃ h', s' = { s with heap := h' } ∧ Heap.InternedAs s.heap s.roots chars r h'

/-- A string of the source is interned. -/
theorem does_intern {chars : String} (hl : s.Live before) :
    Does before s (intern chars s) (s.Interned chars) := by
  unfold intern
  rcases hl.sound.intern chars hl.covers with ⟨r, h', hok, hi⟩ | herr
  · have hok' : s.heap.intern chars (fun _ => State.roots { s with heap := Heap.absent }) =
      .ok (r, h') := hok
    simp only [hok']
    refine .ok (hl.reheap hi.sound hi.kept (fun x o hx => ?_)
      (Heap.retains_intern hl.sound.arena hl.sound.unmarked hok)) ⟨rfl, rfl, Nat.le_refl _⟩ ⟨h', rfl, hi⟩
    by_cases hr : x = r
    · rw [hr, hi.new, Option.some.injEq] at hx
      exact .inr (.inl ⟨_, hx.symm⟩)
    · exact .inl (hi.old x o hx hr)
  · have herr' : s.heap.intern chars (fun _ => State.roots { s with heap := Heap.absent }) =
      .error .arenaFull := herr
    simp only [herr']
    exact rfl

/-- A new text leads to nothing but itself. -/
theorem State.Interned.covers {chars : String} {r : Handle} (hi : s.Interned chars r s') :
    s'.heap.Covers [r] := by
  obtain ⟨h', rfl, hi⟩ := hi
  intro x hx
  have hself : x = r := by
    induction hx with
    | root mem => exact List.mem_singleton.mp mem
    | step _ object stores ih =>
      rw [ih, hi.new, Option.some.injEq] at object
      subst object
      cases stores
  exact Heap.isLive_iff.mpr ⟨_, hself ▸ hi.new⟩

/-- A new text is no function. -/
theorem State.Interned.leaf {chars : String} {r : Handle} (hi : s.Interned chars r s') :
    ∀ x, (Value.ofHandle r).toHandle? = some x →
      ∃ text, s'.heap.object? x = some (.string text) := by
  obtain ⟨h', rfl, hi⟩ := hi
  intro x hx
  rw [Value.toHandle?_ofHandle, Option.some.injEq] at hx
  exact ⟨_, hx ▸ hi.new⟩

/-- An interned text becomes known. -/
theorem State.Interned.carries {chars : String} {r : Handle} (hi : s.Interned chars r s')
    (hl : s.Live before) (hr : s.Ready W) :
    ∃ W', Carries before W W' s s' [] ∧ W' r = some (.text chars) := by
  obtain ⟨h', rfl, hi⟩ := hi
  obtain ⟨V, hf, hg⟩ := hr.fits.intern hi
  exact ⟨V, carries_reheap hl hr hf hg hi.kept, hg.new⟩

/-! ### The pool -/

/-- The pool tells for each constant of a draft its index, and nothing else. -/
structure Draft.Pooled (d : Draft) : Prop where
  few : d.chunk.constants.size ≤ Chunk.maxConstants
  index : ∀ (v : Value) (k : UInt16),
    d.pool[v.bits]? = some k ↔ d.chunk.constants[k.toNat]? = some v

/-- Without a constant the pool is right. -/
theorem Draft.pooled_start (kind : FunctionKind) (name : Option Handle) :
    (Draft.start kind name).Pooled := by
  refine ⟨Nat.zero_le _, fun v k => ?_⟩
  simp [Draft.start, Chunk.empty]

/-- A new constant gets the next index. -/
theorem Draft.Pooled.add {d : Draft} {v : Value} (hd : d.Pooled) (hnew : d.pool[v.bits]? = none)
    (hroom : d.chunk.constants.size < Chunk.maxConstants) :
    Draft.Pooled { d with
      chunk := d.chunk.pushConstant v
      pool := d.pool.insert v.bits d.chunk.constants.size.toUInt16 } := by
  have hsize : d.chunk.constants.size.toUInt16.toNat = d.chunk.constants.size :=
    UInt16.toNat_ofNat_of_lt' hroom
  refine ⟨?_, fun w k => ?_⟩
  · rw [Chunk.pushConstant, Array.size_push]
    exact hroom
  · have hbits : compare v.bits w.bits = .eq ↔ v = w := by
      cases v
      cases w
      simp
    rw [Std.TreeMap.getElem?_insert, Chunk.pushConstant, Array.getElem?_push]
    by_cases hvw : v = w
    · subst hvw
      rw [if_pos (hbits.mpr rfl)]
      constructor
      · intro hk
        rw [← Option.some.inj hk, hsize, if_pos rfl]
      · intro hk
        split at hk
        · next heq =>
          rw [← heq]
          simp
        · rw [(hd.index v k).mpr hk] at hnew
          cases hnew
    · rw [if_neg (mt hbits.mp hvw), hd.index w k]
      split
      · next heq =>
        rw [heq, Array.getElem?_eq_none (Nat.le_refl _)]
        simp [hvw]
      · rfl

/-- The pool is right as long as it and the constants are the same. -/
theorem Draft.Pooled.congr {d e : Draft} (hd : d.Pooled) (hconstants : e.chunk.constants = d.chunk.constants)
    (hpool : e.pool = d.pool) : e.Pooled :=
  ⟨hconstants ▸ hd.few, fun v k => by rw [hconstants, hpool]; exact hd.index v k⟩

/-- The state with one more constant in the innermost draft. -/
def State.pooled (s : State) (v : Value) (index : UInt16) : State :=
  { s with draft := { s.draft with
      chunk := s.draft.chunk.pushConstant v, pool := s.draft.pool.insert v.bits index } }

/-- The constant comes after the other constants of its draft. -/
theorem State.constants_pooled {index : UInt16} :
    (v :: s.constants).Perm (s.pooled v index).constants := by
  simp only [State.constants, State.drafts, State.pooled, Chunk.pushConstant, List.flatMap_cons,
    Array.toList_push, ← List.cons_append]
  exact (List.perm_append_singleton v _).symm.append_right _

/-- A constant was found in the pool or added to it. -/
def State.Pooled (s : State) (v : Value) : UInt16 → State → Prop := fun index s' =>
  (s' = s ∧ s.draft.pool[v.bits]? = some index) ∨
    (s.draft.chunk.constants.size < Chunk.maxConstants ∧
      index = s.draft.chunk.constants.size.toUInt16 ∧ s' = s.pooled v index)

/-- A new constant leaves the constants live. -/
theorem State.Live.pooled {index : UInt16} (hl : s.Live before)
    (hv : ∀ r, v.toHandle? = some r → s.heap.Covers [r]) : (s.pooled v index).Live before := by
  refine ⟨hl.sound, Heap.covers_iff.mpr fun r hr => ?_, ?_, hl.kept, hl.made, hl.retains⟩
  · have hold (hr : r ∈ s.roots) : s.heap.Covers [r] := Heap.covers_iff.mp hl.covers r hr
    rcases mem_roots.mp hr with ⟨d, hd, hr⟩ | hr
    · rcases List.mem_cons.mp hd with rfl | hd
      · rcases Draft.mem_handles.mp hr with hname | ⟨w, hw, hwr⟩
        · exact hold (mem_roots.mpr (.inl ⟨s.draft, List.mem_cons_self,
            Draft.mem_handles.mpr (.inl hname)⟩))
        · rcases Array.mem_push.mp hw with hw | rfl
          · exact hold (mem_roots.mpr (.inl ⟨s.draft, List.mem_cons_self,
              Draft.mem_handles.mpr (.inr ⟨w, hw, hwr⟩)⟩))
          · exact hv r hwr
      · exact hold (mem_roots.mpr (.inl ⟨d, List.mem_cons_of_mem _ hd, hr⟩))
    · exact hold (mem_roots.mpr (.inr hr))
  · intro d hd r hr
    rcases List.mem_cons.mp hd with rfl | hd
    · exact hl.named s.draft List.mem_cons_self r hr
    · exact hl.named d (List.mem_cons_of_mem _ hd) r hr

/-- A constant is found or added, or there are too many. -/
theorem does_makeConstant (hl : s.Live before)
    (hv : ∀ r, v.toHandle? = some r → s.heap.Covers [r]) :
    Does before s (makeConstant v s) (s.Pooled v) := by
  refine (does_look (Q := fun found s' => s' = s ∧ found = s.draft.pool[v.bits]?) hl
    ⟨rfl, rfl⟩).bind fun found s' hl' _ hfound => ?_
  obtain ⟨rfl, hfound⟩ := hfound
  cases found with
  | some index => exact does_pure hl' (.inl ⟨rfl, hfound.symm⟩)
  | none =>
    refine (does_look (Q := fun size s₁ => s₁ = s' ∧ size = s'.draft.chunk.constants.size) hl'
      ⟨rfl, rfl⟩).bind fun size s₁ hl₁ _ hsize => ?_
    obtain ⟨rfl, rfl⟩ := hsize
    by_cases hfull : s₁.draft.chunk.constants.size ≥ Chunk.maxConstants
    · simp only [if_pos hfull]
      exact (does_failBefore (Q := fun _ _ => False) hl₁).bind fun _ _ _ _ h => h.elim
    · simp only [if_neg hfull]
      exact .ok (hl₁.pooled hv) ⟨rfl, rfl, Nat.le_refl _⟩
        (.inr ⟨Nat.lt_of_not_le hfull, rfl, rfl⟩)

/-- A constant in the pool is where its index says. -/
theorem State.Pooled.carries (before : Heap) {index : UInt16} (hp : s.Pooled v index s') (hr : s.Ready W)
    (hv : W.Holds v .any) (hplanted : s.heap.Planted (v :: s.constants)) :
    Carries before W W s s' [] ∧
      (s'.view W).context.constants[index.toNat]? = some (W.typeOf v) := by
  have hd := hr.drafts s.draft List.mem_cons_self
  have hat (c : Chunk) (v : Value) (i : Nat) (hi : c.constants[i]? = some v) :
      (c.constants.toList.map W.typeOf)[i]? = some (W.typeOf v) := by simp [hi]
  rcases hp with ⟨rfl, hfound⟩ | ⟨hroom, rfl, rfl⟩
  · obtain ⟨w, hw, hbits⟩ := hd.pool _ _ hfound
    have hwv : w = v := by
      cases w
      cases v
      simpa using hbits
    exact ⟨State.Moved.carries (.refl _) hr, hat _ _ _ (hwv ▸ hw)⟩
  · have hindex : s.draft.chunk.constants.size.toUInt16.toNat = s.draft.chunk.constants.size := by
      have : s.draft.chunk.constants.size < 2 ^ 16 := hroom
      exact UInt16.toNat_ofNat_of_lt this
    have hnew : (s.pooled v s.draft.chunk.constants.size.toUInt16).draft.chunk.constants[
        s.draft.chunk.constants.size.toUInt16.toNat]? = some v := by
      rw [hindex]
      exact Array.getElem?_push_size
    have hpooled : DraftOk W (s.pooled v s.draft.chunk.constants.size.toUInt16).draft := by
      refine ⟨hd.name, ?_, ?_, ?_, ⟨hd.lines.size⟩, hd.slots, hd.variables_, hd.settled, hd.inhabited,
        hd.depth⟩
      · intro w hw
        rcases Array.mem_push.mp hw with hw | rfl
        · exact hd.constants w hw
        · exact hv
      · intro b i hi
        rw [State.pooled, Std.TreeMap.getElem?_insert] at hi
        split at hi
        · next hb =>
          rw [Option.some.injEq] at hi
          exact ⟨v, hi ▸ hnew, Std.LawfulEqCmp.eq_of_compare hb⟩
        · obtain ⟨w, hw, hbits⟩ := hd.pool b i hi
          refine ⟨w, ?_, hbits⟩
          have hlt := (Array.getElem?_eq_some_iff.mp hw).1
          show (s.draft.chunk.constants.push v)[i.toNat]? = some w
          rw [Array.getElem?_push, if_neg (by omega), hw]
      · show (s.draft.chunk.constants.push v).size ≤ Chunk.maxConstants
        rw [Array.size_push]
        omega
    refine ⟨⟨⟨hr.redraft hpooled hr.captures.1 hr.global
      (fun l hl hname => ⟨l, hl, hname⟩) (hplanted.perm State.constants_pooled), rfl,
      ⟨rfl, rfl, rfl, rfl, ?_, List.prefix_rfl⟩, by simp [State.pooled, Chunk.pushConstant],
      outgrown_refl _, rfl, fun _ _ _ ht => ht⟩, .refl _⟩, hat _ _ _ hnew⟩
    simp [State.pooled, Chunk.pushConstant]

/-- A name is a constant that is a text. -/
theorem finds_nameConstant {K : World → State → Prop} {name : String} :
    Finds before K (nameConstant name) (Named · name) := by
  intro s hl
  refine (does_intern hl).bind fun r s' hl' _ hi => ?_
  refine (does_makeConstant hl' fun x hx => ?_).imp fun k s'' _ hlater hp W hr _ hclean => ?_
  · rw [Value.toHandle?_ofHandle, Option.some.injEq] at hx
    exact hx ▸ hi.covers
  · obtain ⟨W', hc, ht⟩ := hi.carries hl hr
    obtain ⟨hc', hk⟩ := hp.carries before hc.ready (World.holds_ofHandle ht)
      (hc.ready.planted.leaf hi.leaf)
    refine ⟨W', hc.trans hc', ?_⟩
    show (s''.view W').context.constants[k.toNat]? = some (some (.text name))
    rw [hk, World.typeOf_ofHandle ht]

/-- A constant is inside the pool. -/
def Bounded (k : UInt16) : World → State → Prop := fun W s =>
  k.toNat < (s.view W).context.constants.length

/-- Loading a constant pushes a temporary. -/
theorem may_constant {K : World → State → Prop} {k : UInt16} :
    May (Both K (Bounded k)) (.constant k) [] [.value] :=
  may_of_plain 0 1 fun _ _ _ hk _ hV =>
    .constant (Nat.lt_of_lt_of_le hk.2 hV.context.constants.length_le)

/-- A number is pushed. -/
theorem turns_emitConstant_number {K : World → State → Prop} [Stable K] {x : Float} :
    Turns before K (emitConstant (.ofFloat x)) [] [.value] := by
  refine Finds.bind (P := Bounded) (fun s hl => ?_) fun k => turns_emit may_constant
  refine (does_makeConstant hl fun r hr => ?_).imp fun k s' _ _ hp W hr _ _ => ?_
  · rw [Value.toHandle?_ofFloat] at hr
    cases hr
  · obtain ⟨hc, hk⟩ := hp.carries before hr
      (World.holds_of_not_reference (Value.toHandle?_ofFloat x)) (hr.planted.leaf fun r hr => by
        rw [Value.toHandle?_ofFloat] at hr
        cases hr)
    exact ⟨W, hc, (List.getElem?_eq_some_iff.mp hk).1⟩

/-- A string is pushed. -/
theorem turns_emitConstant_text {K : World → State → Prop} [Stable K] {content : String} :
    Turns before K (do
      let r ← intern content
      emitConstant (.ofHandle r) : Compiler Unit) [] [.value] := by
  have hassoc : (intern content >>= fun r => emitConstant (.ofHandle r)) =
      nameConstant content >>= fun k => emit (.constant k) := by
    simp [nameConstant, emitConstant]
  rw [hassoc]
  refine finds_nameConstant.bind fun k => turns_emit ?_
  exact may_of_plain 0 1 fun W s hr hk V hV => .constant
    (Nat.lt_of_lt_of_le (List.getElem?_eq_some_iff.mp hk.2).1 hV.context.constants.length_le)

end ScriptMachine.Compile
