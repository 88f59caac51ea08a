import ScriptMachine.Proofs.Scoping.Steps

/-!
# Names and constants in a translation

A constant is in the pool of the finished function where its index says. What a name is resolved
to is where its variable is kept: the slot of the innermost visible local, else an upvalue that
leads outward to the innermost local of the nearest function around that has one, else a global.
-/

namespace ScriptMachine.Compile

variable {before : Heap} {s s' : State} {o : Nat} {name : String} {B : Body}

/-! ### Constants -/

/-- A constant was found or added. -/
theorem State.Steady.makeConstant {v : Value} {k : UInt16} (hs : s.Steady before)
    (hv : ∀ r, v.toHandle? = some r → s.heap.Covers [r]) (h : makeConstant v s = .ok k s') :
    s.Adds before s' [] ∧ s'.draft.chunk.constants.toList[k.toNat]? = some v ∧
      s'.site = s.site ∧ s'.heap = s.heap ∧
      s'.draft.chunk.constants.toList =
        if v ∈ s.draft.chunk.constants.toList then s.draft.chunk.constants.toList
        else s.draft.chunk.constants.toList ++ [v] := by
  have ht := hs.tidy s.draft List.mem_cons_self
  obtain ⟨hlive, hpooled⟩ := (does_makeConstant hs.live hv).run h
  obtain ⟨found, _, hlook, hrest⟩ := run_bind.mp h
  obtain ⟨hfind, rfl⟩ := run_look.mp hlook
  cases found with
  | some i =>
    obtain ⟨rfl, rfl⟩ := run_pure.mp hrest
    have hfound := (ht.pooled.index v i).mp hfind
    have hmem := Array.mem_toList_iff.mpr (Array.mem_of_getElem? hfound)
    exact ⟨.refl hs, by rwa [Array.getElem?_toList], rfl, rfl, (if_pos hmem).symm⟩
  | none =>
    rcases hpooled with ⟨-, hfound⟩ | ⟨hroom, rfl, rfl⟩
    · cases hfind.symm.trans hfound
    · have hpooled := ht.pooled.add hfind hroom
      have hindex : s.draft.chunk.constants.size.toUInt16.toNat = s.draft.chunk.constants.size :=
        UInt16.toNat_ofNat_of_lt' hroom
      have hnew : v ∉ s.draft.chunk.constants.toList := fun hmem => by
        obtain ⟨i, hi⟩ := List.mem_iff_getElem?.mp hmem
        rw [Array.getElem?_toList] at hi
        have hlt := Nat.lt_of_lt_of_le (Array.getElem?_eq_some_iff.mp hi).1 (Nat.le_of_lt hroom)
        rw [← UInt16.toNat_ofNat_of_lt' hlt, ← ht.pooled.index] at hi
        cases hfind.symm.trans hi
      refine ⟨⟨⟨hlive, ?_, hs.settled, hs.around, hs.marks⟩, rfl, rfl, rfl, ?_, ?_, List.prefix_rfl,
        hs.marks, fun _ _ => rfl⟩, ?_, rfl, rfl, ?_⟩
      · exact List.forall_mem_cons.mpr ⟨⟨hpooled, ht.locals, ht.captures, ht.distinct⟩,
          (List.forall_mem_cons.mp hs.tidy).2⟩
      · exact (List.append_nil _).symm
      · simp [State.pooled, Chunk.pushConstant]
      · simp [State.pooled, Chunk.pushConstant, hindex]
      · simp [State.pooled, Chunk.pushConstant, hnew]

/-- What a constant of the draft refers to is kept alive. -/
theorem State.constant_mem_roots {k : Nat} {r : Handle}
    (h : s.draft.chunk.constants.toList[k]? = some (.ofHandle r)) : r ∈ s.roots :=
  State.mem_roots.mpr (.inl ⟨s.draft, List.mem_cons_self, Draft.mem_handles.mpr
    (.inr ⟨_, Array.mem_toList_iff.mp (List.mem_of_getElem? h), Value.toHandle?_ofHandle r⟩)⟩)

/-- A text was interned. -/
theorem State.Steady.intern {chars : String} {r : Handle} (hs : s.Steady before)
    (h : intern chars s = .ok r s') : s.Adds before s' [] ∧ s'.site = s.site ∧
      s'.heap.Covers [r] ∧ ∃ text, s'.heap.object? r = some (.string text) ∧ text.chars = chars := by
  obtain ⟨hlive, hi⟩ := (does_intern hs.live).run h
  have hcovers := hi.covers
  obtain ⟨h', rfl, hi⟩ := hi
  exact ⟨⟨⟨hlive, hs.tidy, hs.settled, hs.around, hs.marks⟩, rfl, rfl, rfl,
    (List.append_nil _).symm, List.prefix_rfl, List.prefix_rfl, hs.marks, hi.kept⟩, rfl, hcovers,
    _, hi.new, rfl⟩

/-- The constant of a name is its text. -/
theorem gives_nameConstant : Gives before o (nameConstant name) fun B _ k w =>
    w = [] ∧ B.Names k name := by
  intro s k s' hs _ _ h
  obtain ⟨r, s₁, hintern, hconstant⟩ := run_bind.mp h
  obtain ⟨hadds, hsite, hcovers, text, htext, hchars⟩ := hs.intern hintern
  obtain ⟨hadds', hk, hsite', hheap, -⟩ := hadds.steady.makeConstant (fun x hx => by
    rw [Value.toHandle?_ofHandle, Option.some.injEq] at hx
    exact hx ▸ hcovers) hconstant
  refine ⟨_, hadds.trans hadds', fun B hB => ⟨hsite'.trans hsite, rfl, r, text,
    prefix_getElem? hB.constants hk, ?_, hchars⟩⟩
  rw [hB.heap r (.root (State.constant_mem_roots hk)), hheap, htext]

/-- A number is loaded. -/
theorem gives_number {x : Float} : Gives before o (emitConstant (.ofFloat x)) fun B _ _ w =>
    ∃ k : UInt16, B.constants[k.toNat]? = some (.ofFloat x) ∧ w = [(Instr.constant k).encode] := by
  refine Gives.finding (U := fun B _ k => B.constants[k.toNat]? = some (.ofFloat x)) ?_
    fun k => gives_emit fun B scope hk => ⟨k, hk, rfl⟩
  intro s k s' hs _ _ h
  obtain ⟨hadds, hk, hsite, -, -⟩ := hs.makeConstant (fun r hr => by
    rw [Value.toHandle?_ofFloat] at hr
    cases hr) h
  exact ⟨_, hadds, fun B hB => ⟨hsite, rfl, prefix_getElem? hB.constants hk⟩⟩

/-- A text is loaded. -/
theorem gives_text {content : String} : Gives before o (do
      let r ← intern content
      emitConstant (.ofHandle r) : Compiler Unit) fun B _ _ w =>
    ∃ k : UInt16, B.Names k content ∧ w = [(Instr.constant k).encode] := by
  have hassoc : (intern content >>= fun r => emitConstant (.ofHandle r)) =
      nameConstant content >>= fun k => emit (.constant k) := by
    simp [nameConstant, emitConstant]
  rw [hassoc]
  exact gives_nameConstant.finding fun k => gives_emit fun B scope hk => ⟨k, hk, rfl⟩

/-! ### Variables -/

/-- A name was looked for among the functions around. -/
theorem State.Steady.captureVariable {index : Option UInt8} (hs : s.Steady before)
    (h : captureVariable name s = .ok index s') :
    s.Adds before s' [] ∧ s'.site = s.site ∧
      (∀ i, index = some i →
        Reaches name s'.draft.captures.toList (levelsOf s'.enclosing) i.toNat) ∧
      (index = none → ∀ d ∈ s.enclosing, (scopeOf d.locals).Lacks name) := by
  have ht := hs.tidy s.draft List.mem_cons_self
  obtain ⟨hlive, -⟩ := (does_captureVariable hs.live).run h
  unfold Compile.captureVariable at h
  generalize hfound : Draft.resolveCapture name s.draft s.enclosing = found at h
  obtain ⟨result, draft, enclosing⟩ := found
  cases result with
  | error p => exact (run_failBefore.mp h).elim
  | ok index =>
    obtain ⟨rfl, rfl⟩ := EStateM.Result.ok.inj h
    have hr := resolveCapture_resolved hfound hs.marks ht.captures fun d hd =>
      have hd' := hs.tidy d (List.mem_cons_of_mem _ hd)
      ⟨hd'.captures, hd'.locals, hs.around d hd⟩
    have hdistinct := resolveCapture_distinct hfound ht.distinct fun d hd =>
      (hs.tidy d (List.mem_cons_of_mem _ hd)).distinct
    obtain ⟨own, rfl, hown⟩ := hr.inner
    refine ⟨⟨⟨hlive, ?_, hs.settled, ?_, hr.marks.again⟩, rfl, rfl, rfl, (List.append_nil _).symm,
      List.prefix_rfl, hown, hr.marks, fun _ _ => rfl⟩, rfl, hr.reaches, hr.lacks⟩
    · refine List.forall_mem_cons.mpr
        ⟨⟨ht.pooled.congr rfl rfl, ht.locals, hr.few, hdistinct.1⟩, fun d hd => ?_⟩
      obtain ⟨d₀, hd₀, hrec⟩ := exists_of_mem_right hr.marks.recaptured hd
      have hold := hs.tidy d₀ (List.mem_cons_of_mem _ hd₀)
      have hfew := hr.fewAround d hd
      have hdistinct := hdistinct.2 d hd
      obtain ⟨locals, captures, rfl, hlocals, -⟩ := hrec
      exact ⟨hold.pooled.congr rfl rfl, hlocals.length_eq ▸ hold.locals, hfew, hdistinct⟩
    · intro d hd
      obtain ⟨d₀, hd₀, hrec⟩ := exists_of_mem_right hr.marks.recaptured hd
      obtain ⟨locals, captures, rfl, hlocals, -⟩ := hrec
      exact hlocals.settled (hs.around d₀ hd₀)

/-- What the functions around lack before a step, the body lacks that the function becomes. -/
theorem lacks_outer (hB : LevelsLe (levelsOf s.enclosing) B.outer)
    (h : ∀ d ∈ s.enclosing, (scopeOf d.locals).Lacks name) :
    ∀ level ∈ B.outer, level.scope.Lacks name := by
  intro level hlevel
  obtain ⟨level₀, hlevel₀, hnames, -⟩ := exists_of_mem_right hB hlevel
  obtain ⟨d, hd, rfl⟩ := List.mem_map.mp hlevel₀
  exact (h d hd).congr hnames

/-- A name is resolved to where its variable is kept. -/
theorem gives_resolve : Gives before o (resolve name) fun B scope a w =>
    w = [] ∧ B.Finds scope name a := by
  intro s a s' hs ho _ h
  have ht := hs.tidy s.draft List.mem_cons_self
  obtain ⟨found, _, hlook, h⟩ := run_bind.mp h
  obtain ⟨hfind, rfl⟩ := run_look.mp hlook
  rcases found with _ | ⟨slot, _ | _⟩
  · obtain ⟨index, s₁, hcapture, h⟩ := run_bind.mp h
    obtain ⟨hadds, hsite, hreaches, hlacks⟩ := hs.captureVariable hcapture
    have hown : s.site.scope.Lacks name := lacks_of_find? hfind
    cases index with
    | some i =>
      obtain ⟨rfl, rfl⟩ := run_pure.mp h
      exact ⟨[], hadds, fun B hB => ⟨hsite, rfl, .upvalue hown
        (Reaches.mono (hreaches i rfl) hB.captures hB.outer)⟩⟩
    | none =>
      obtain ⟨k, s₂, hname, h⟩ := run_bind.mp h
      obtain ⟨rfl, rfl⟩ := run_pure.mp h
      obtain ⟨w, hadds', hw⟩ := gives_nameConstant s₁ k s₂ hadds.steady rfl trivial hname
      refine ⟨w, hadds.trans hadds', fun B hB => ?_⟩
      obtain ⟨hsite', hnil, hnames⟩ := hw B hB
      exact ⟨hsite'.trans hsite, hnil, .global hown
        (lacks_outer ((hadds.trans hadds').completes hB).outer (hlacks rfl)) hnames⟩
  · exact (run_failBefore.mp h).elim
  · obtain ⟨rfl, rfl⟩ := run_pure.mp h
    refine ⟨[], .refl hs, fun B _ => ⟨rfl, rfl, .local_ ?_⟩⟩
    have hdeclares := declares_of_find? hs.settled hfind
    have hbyte : slot.toUInt8.toNat = slot := by
      obtain ⟨pre, l, rest, hsplit, -, rfl, -⟩ := find?_eq_some hfind
      have hlt : rest.length < 2 ^ 8 := by
        have hfew : s.draft.locals.length ≤ 256 := ht.locals
        rw [hsplit, List.length_append, List.length_cons] at hfew
        omega
      exact UInt8.toNat_ofNat_of_lt hlt
    exact hbyte.symm ▸ hdeclares

/-- A variable is read. -/
theorem gives_readVariable : Gives before o (readVariable name) fun B scope _ w =>
    ∃ a, B.Finds scope name a ∧ w = [a.get.encode] :=
  gives_resolve.finding fun a => gives_emit fun _ _ ha => ⟨a, ha, rfl⟩

end ScriptMachine.Compile
