import ScriptMachine.Proofs.Compile.Resolve
import ScriptMachine.Proofs.Scoping.Scopes

/-!
# Captures mark locals

While a function is compiled, each capture of a local of the function around marks that local, and
nothing else about the functions around changes but that they capture more themselves. So the
locals of the function around are at any time those that it had when the inner function began,
with the marks that the captures of the inner function make, and likewise further out.
-/

namespace ScriptMachine.Compile

variable {captures captures' : List Capture} {ls : List Local} {name : String}
  {ds ds' ds'' : List Draft}

/-- The locals, marked by the captures of a function inside. -/
def markLocals (captures : List Capture) : List Local → List Local
  | [] => []
  | l :: rest =>
    { l with captured := l.captured || takesSlot captures rest.length } :: markLocals captures rest

/-- The scope of the locals that are initialized. -/
def scopeOf (ls : List Local) : Scope :=
  (ls.filter fun l => l.depth.isSome).map fun l => ⟨l.name, l.captured⟩

/-- The levels of the functions around. -/
def levelsOf (ds : List Draft) : List Level := ds.map fun d => ⟨scopeOf d.locals, d.captures.toList⟩

/-- Marking leaves the number of locals. -/
@[simp] theorem length_markLocals : (markLocals captures ls).length = ls.length := by
  induction ls with
  | nil => rfl
  | cons l rest ih => simp [markLocals, ih]

/-- Every local that has its value is in scope. -/
theorem length_scopeOf (hs : Settled ls) : (scopeOf ls).length = ls.length := by
  rw [scopeOf, List.length_map, List.filter_eq_self.mpr hs]

/-- A local that has its value is in scope above the others. -/
theorem scopeOf_cons {l : Local} (hl : l.depth.isSome) :
    scopeOf (l :: ls) = ⟨l.name, l.captured⟩ :: scopeOf ls := by simp [scopeOf, hl]

/-- A local without its value is not in scope. -/
theorem scopeOf_fresh {l : Local} (hl : l.depth = none) : scopeOf (l :: ls) = scopeOf ls := by
  simp [scopeOf, hl]

/-- Locals above others are in scope above them. -/
theorem scopeOf_append (ls ms : List Local) : scopeOf (ls ++ ms) = scopeOf ls ++ scopeOf ms := by
  simp [scopeOf]

/-- More captures take more slots. -/
theorem takesSlot_mono {slot : Nat} (hp : captures <+: captures')
    (h : takesSlot captures slot = true) : takesSlot captures' slot = true := by
  obtain ⟨rest, rfl⟩ := hp
  simp only [takesSlot, List.any_append, Bool.or_eq_true] at h ⊢
  exact .inl h

/-- Without a capture no local is marked. -/
theorem markLocals_nil (ls : List Local) : markLocals [] ls = ls := by
  induction ls with
  | nil => rfl
  | cons l rest ih => simp [markLocals, ih, takesSlot]

/-- Marks that were made before are made again. -/
theorem markLocals_markLocals (hp : captures <+: captures') (ls : List Local) :
    markLocals captures' (markLocals captures ls) = markLocals captures' ls := by
  induction ls with
  | nil => rfl
  | cons l rest ih =>
    simp only [markLocals, ih, length_markLocals, List.cons.injEq, Local.mk.injEq, and_true, true_and]
    cases h : takesSlot captures rest.length with
    | false => simp
    | true => simp [takesSlot_mono hp h]

/-- Locals grow when they are marked. -/
theorem localsLe_markLocals (captures : List Capture) (ls : List Local) :
    LocalsLe ls (markLocals captures ls) := by
  induction ls with
  | nil => exact .nil
  | cons l rest ih => exact .cons ⟨rfl, rfl, fun h => by simp [h]⟩ ih

/-- Marks on the locals are marks on the scope. -/
theorem scopeOf_markLocals (hs : Settled ls) :
    scopeOf (markLocals captures ls) = (scopeOf ls).mark captures := by
  induction ls with
  | nil => rfl
  | cons l rest ih =>
    have hrest : Settled rest := fun m hm => hs m (List.mem_cons_of_mem _ hm)
    have hl : l.depth.isSome := hs l List.mem_cons_self
    rw [markLocals, scopeOf_cons hl,
      scopeOf_cons (l := { l with captured := l.captured || takesSlot captures rest.length }) hl,
      ih hrest, Scope.mark, length_scopeOf hrest]

/-- Marks leave the names alone. -/
theorem LocalsLe.scope_names {ms : List Local} (h : LocalsLe ls ms) :
    (scopeOf ms).map Binding.name = (scopeOf ls).map Binding.name := by
  induction h with
  | nil => rfl
  | @cons l m ls ms hl _ ih =>
    cases hd : l.depth with
    | none => rw [scopeOf_fresh hd, scopeOf_fresh (hl.depth.trans hd), ih]
    | some k =>
      rw [scopeOf_cons (by rw [hl.depth, hd]; rfl), scopeOf_cons (by rw [hd]; rfl), List.map_cons,
        List.map_cons, ih, hl.name]

/-- A local that is found is the innermost one of its name. -/
theorem declares_of_find? {slot : Nat} (hs : Settled ls.tail)
    (h : Local.find? name ls = some (slot, true)) : (scopeOf ls).Declares name slot := by
  induction ls with
  | nil => simp [Local.find?] at h
  | cons l rest ih =>
    have hrest : Settled rest := hs
    have htail : Settled rest.tail := fun m hm => hrest m (List.mem_of_mem_tail hm)
    rw [Local.find?] at h
    split at h
    · next hname =>
      simp only [Option.some.injEq, Prod.mk.injEq] at h
      obtain ⟨rfl, hl⟩ := h
      rw [scopeOf_cons hl, ← length_scopeOf hrest, ← hname]
      exact .here
    · next hname =>
      cases hd : l.depth with
      | none =>
        rw [scopeOf_fresh hd]
        exact ih htail h
      | some k =>
        rw [scopeOf_cons (by rw [hd]; rfl)]
        exact .behind hname (ih htail h)

/-- A name that is not found is not in scope. -/
theorem lacks_of_find? (h : Local.find? name ls = none) : (scopeOf ls).Lacks name := by
  intro b hb
  obtain ⟨l, hl, rfl⟩ := List.mem_map.mp hb
  exact find?_eq_none h l (List.mem_of_mem_filter hl)

/-! ### Functions around -/

/-- The drafts around a function when it has some captures, if they were others before. -/
inductive Marks : List Capture → List Draft → List Draft → Prop
  | nil {captures : List Capture} : Marks captures [] []
  | cons {captures : List Capture} {d : Draft} {own : Array Capture} {ds ds' : List Draft}
      (more : d.captures.toList <+: own.toList) (rest : Marks own.toList ds ds') :
      Marks captures (d :: ds)
        ({ d with locals := markLocals captures d.locals, captures := own } :: ds')

/-- Marking twice is marking for the later captures. -/
theorem Marks.trans (hp : captures <+: captures') (h : Marks captures ds ds')
    (h' : Marks captures' ds' ds'') : Marks captures' ds ds'' := by
  induction h generalizing captures' ds'' with
  | nil => exact h'
  | @cons captures d own ds ds' more rest ih =>
    cases h' with
    | @cons _ _ own' _ _ more' rest' =>
      have : Marks captures' _ _ := .cons (more.trans more') (ih more' rest')
      simpa only [markLocals_markLocals hp] using this

/-- The drafts around have the marks already. -/
theorem Marks.again (h : Marks captures ds ds') : Marks captures ds' ds' := by
  induction h with
  | nil => exact .nil
  | @cons captures d own ds ds' more rest ih =>
    have : Marks captures ({ d with locals := markLocals captures d.locals, captures := own } :: _)
        ({ d with locals := markLocals captures (markLocals captures d.locals), captures := own } ::
          _) := .cons List.prefix_rfl ih
    simpa only [markLocals_markLocals List.prefix_rfl] using this

/-- Nothing but marks and captures changes around. -/
theorem Marks.recaptured (h : Marks captures ds ds') : List.Forall₂ Recaptured ds ds' := by
  induction h with
  | nil => exact .nil
  | cons more rest ih => exact .cons ⟨_, _, rfl, localsLe_markLocals _ _, more⟩ ih

/-- Levels with the same names and possibly more captures. -/
abbrev LevelsLe (levels levels' : List Level) : Prop :=
  List.Forall₂ (fun l l' => l'.scope.map Binding.name = l.scope.map Binding.name ∧
    l.captures <+: l'.captures) levels levels'

/-- Growing twice is growing, level by level. -/
theorem LevelsLe.trans {ls ms ns : List Level} (h : LevelsLe ls ms) (h' : LevelsLe ms ns) :
    LevelsLe ls ns := forall₂_comp h h' fun _ _ _ h h' => ⟨h'.1.trans h.1, h.2.trans h'.2⟩

/-- The levels around grow when they are marked. -/
theorem Marks.levels (h : Marks captures ds ds') : LevelsLe (levelsOf ds) (levelsOf ds') := by
  induction h with
  | nil => exact .nil
  | cons more rest ih => exact .cons ⟨(localsLe_markLocals _ _).scope_names, more⟩ ih

/-- What captures lead to, they still lead to when there are more. -/
theorem Reaches.mono {levels levels' : List Level} {i : Nat} (h : Reaches name captures levels i)
    (hp : captures <+: captures') (hl : LevelsLe levels levels') :
    Reaches name captures' levels' i := by
  induction h generalizing captures' levels' with
  | local_ capture declares =>
    cases hl with
    | cons hlevel _ =>
      exact .local_ (prefix_getElem? hp capture) (declares.congr hlevel.1)
  | upvalue capture lacks further ih =>
    cases hl with
    | cons hlevel htail =>
      exact .upvalue (prefix_getElem? hp capture) (lacks.congr hlevel.1) (ih hlevel.2 htail)

/-! ### Looking for a name around -/

/-- A slot that is captured is taken. -/
theorem takesSlot_of_mem {c : Capture} {slot : Nat} (hc : c ∈ captures) (hl : c.isLocal = true)
    (hi : c.index.toNat = slot) : takesSlot captures slot = true :=
  List.any_eq_true.mpr ⟨c, hc, by simp [hl, hi]⟩

/-- Marking the local that a name stands for is what a capture of its slot does to locals that
have the marks of all other captures. -/
theorem markCaptured_eq {slot : Nat} {captures' : List Capture}
    (hself : markLocals captures ls = ls) (hfind : Local.find? name ls = some (slot, true))
    (hadd : ∀ n, takesSlot captures' n = true ↔ takesSlot captures n = true ∨ n = slot) :
    Local.markCaptured name ls = markLocals captures' ls := by
  have hold (n : Nat) (hn : n ≠ slot) : takesSlot captures' n = takesSlot captures n := by
    rw [Bool.eq_iff_iff, hadd]
    simp [hn]
  have hsame (ms : List Local) (hself : markLocals captures ms = ms) (hlt : ms.length ≤ slot) :
      markLocals captures' ms = ms := by
    induction ms with
    | nil => rfl
    | cons l rest ih =>
      simp only [markLocals, List.cons.injEq] at hself ⊢
      simp only [List.length_cons] at hlt
      rw [hold _ (by omega)]
      exact ⟨hself.1, ih hself.2 (by omega)⟩
  induction ls with
  | nil => simp [Local.find?] at hfind
  | cons l rest ih =>
    simp only [markLocals, List.cons.injEq] at hself
    rw [Local.find?] at hfind
    rw [Local.markCaptured, markLocals]
    split at hfind
    · next hname =>
      simp only [Option.some.injEq, Prod.mk.injEq] at hfind
      rw [if_pos hname, hsame rest hself.2 (Nat.le_of_eq hfind.1),
        (hadd rest.length).mpr (.inr hfind.1), Bool.or_true]
    · next hname =>
      have hlt : slot < rest.length := by
        obtain ⟨pre, m, post, rfl, -, rfl, -⟩ := find?_eq_some hfind
        simp
        omega
      rw [if_neg hname, hold _ (Nat.ne_of_gt hlt), hself.1, ih hself.2 hfind]

/-- Captures that take the same slots make the same marks. -/
theorem markLocals_congr (h : ∀ n, takesSlot captures' n = takesSlot captures n) (ls : List Local) :
    markLocals captures' ls = markLocals captures ls := by
  induction ls with
  | nil => rfl
  | cons l rest ih => rw [markLocals, markLocals, h, ih]

/-- Which slots are taken when a capture was found or added. -/
theorem Added.takesSlot {c : Capture} {d d' : Draft} {i : UInt8} (h : Added c d i d')
    (hfew : d.captures.size ≤ maxUpvalues) (n : Nat) : takesSlot d'.captures.toList n = true ↔
      ScriptMachine.takesSlot d.captures.toList n = true ∨
        (c.isLocal = true ∧ c.index.toNat = n) := by
  constructor
  · intro hn
    obtain ⟨x, hx, htakes⟩ := List.any_eq_true.mp hn
    simp only [Bool.and_eq_true, beq_iff_eq] at htakes
    rcases h.mem x (Array.mem_toList_iff.mp hx) with hx | rfl
    · exact .inl (takesSlot_of_mem (Array.mem_toList_iff.mpr hx) htakes.1 htakes.2)
    · exact .inr htakes
  · rintro (hn | ⟨hlocal, hn⟩)
    · obtain ⟨own, rfl, hprefix⟩ := h.recaptured
      exact takesSlot_mono hprefix hn
    · exact takesSlot_of_mem (Array.mem_toList_iff.mpr (Array.mem_of_getElem? (h.found hfew)))
        hlocal hn

/-- What looking for a name among the functions around finds, and what it changes. -/
structure Resolved (name : String) (inner : Draft) (outer : List Draft) (index : Option UInt8)
    (inner' : Draft) (outer' : List Draft) : Prop where
  inner : ∃ own, inner' = { inner with captures := own } ∧ inner.captures.toList <+: own.toList
  few : inner'.captures.size ≤ maxUpvalues
  marks : Marks inner'.captures.toList outer outer'
  fewAround : ∀ d ∈ outer', d.captures.size ≤ maxUpvalues
  reaches : ∀ i, index = some i → Reaches name inner'.captures.toList (levelsOf outer') i.toNat
  lacks : index = none → ∀ d ∈ outer, (scopeOf d.locals).Lacks name

/-- Locals that are marked already stay as they are. -/
theorem Marks.cons_self {d : Draft} {captures : List Capture} (h : Marks captures (d :: ds) (d :: ds)) :
    markLocals captures d.locals = d.locals ∧ Marks d.captures.toList ds ds := by
  obtain ⟨ys, hys⟩ : ∃ ys, ys = d :: ds := ⟨_, rfl⟩
  have h' : Marks captures (d :: ds) ys := hys ▸ h
  cases h' with
  | @cons _ _ own _ _ more rest =>
    obtain ⟨hd, rfl⟩ := List.cons.inj hys
    have hlocals : markLocals captures d.locals = d.locals := congrArg Draft.locals hd
    have hown : own = d.captures := congrArg Draft.captures hd
    exact ⟨hlocals, hown ▸ rest⟩

/-- A capture that is added is found at its index. -/
theorem addCapture_ok {d d' : Draft} {c : Capture} {i : UInt8} (h : d.addCapture c = (.ok i, d')) :
    Added c d i d' := by
  rcases addCapture_spec d c with ⟨i', d'', heq, hadded⟩ | heq
  · obtain ⟨hi, rfl⟩ := Prod.mk.inj (heq.symm.trans h)
    exact Except.ok.inj hi ▸ hadded
  · have := heq.symm.trans h
    cases this

/-- A capture is not added twice. -/
theorem addCapture_distinct {d d' : Draft} {c : Capture} {result : Except Problem UInt8}
    (h : d.addCapture c = (result, d')) (hd : d.captures.toList.Nodup) :
    d'.captures.toList.Nodup := by
  unfold Draft.addCapture at h
  split at h
  · exact (Prod.mk.inj h).2 ▸ hd
  · next hnone =>
    split at h
    · rw [← (Prod.mk.inj h).2, Array.toList_push, List.nodup_append]
      refine ⟨hd, by simp, fun x hx y hy hxy => ?_⟩
      obtain rfl := List.mem_singleton.mp hy
      have hall := Array.findIdx?_eq_none_iff.mp hnone x (Array.mem_toList_iff.mp hx)
      exact of_decide_eq_false hall hxy
    · exact (Prod.mk.inj h).2 ▸ hd

/-- Looking for a name lists no capture twice. -/
theorem resolveCapture_distinct {inner inner' : Draft} {outer outer' : List Draft}
    {result : Except Problem (Option UInt8)}
    (h : Draft.resolveCapture name inner outer = (result, inner', outer'))
    (hinner : inner.captures.toList.Nodup) (houter : ∀ d ∈ outer, d.captures.toList.Nodup) :
    inner'.captures.toList.Nodup ∧ ∀ d ∈ outer', d.captures.toList.Nodup := by
  induction outer generalizing inner inner' outer' result with
  | nil =>
    simp only [Draft.resolveCapture, Prod.mk.injEq] at h
    obtain ⟨-, rfl, rfl⟩ := h
    exact ⟨hinner, houter⟩
  | cons d rest ih =>
    obtain ⟨hd, hrest⟩ := List.forall_mem_cons.mp houter
    rw [Draft.resolveCapture] at h
    split at h
    · obtain ⟨-, rfl, rfl⟩ : _ ∧ inner = inner' ∧ d :: rest = outer' := by simpa using h
      exact ⟨hinner, houter⟩
    · next slot hfind =>
      generalize hadd : inner.addCapture ⟨true, slot.toUInt8⟩ = added at h
      obtain ⟨-, rfl, rfl⟩ : _ ∧ added.2 = inner' ∧ _ = outer' := by simpa using h
      exact ⟨addCapture_distinct hadd hinner, List.forall_mem_cons.mpr ⟨hd, hrest⟩⟩
    · generalize hrec : Draft.resolveCapture name d rest = found at h
      obtain ⟨answer, d', rest'⟩ := found
      obtain ⟨hd', hrest'⟩ := ih hrec hd hrest
      split at h
      · next i _ _ hfound =>
        obtain ⟨rfl, rfl, rfl⟩ : answer = _ ∧ d' = _ ∧ rest' = _ := by simpa using hfound
        generalize hadd : inner.addCapture ⟨false, i⟩ = added at h
        obtain ⟨-, rfl, rfl⟩ : _ ∧ added.2 = inner' ∧ _ = outer' := by simpa using h
        exact ⟨addCapture_distinct hadd hinner, List.forall_mem_cons.mpr ⟨hd', hrest'⟩⟩
      · next hfound =>
        obtain ⟨rfl, rfl, rfl⟩ : answer = _ ∧ d' = _ ∧ rest' = _ := by simpa using hfound
        obtain ⟨-, rfl, rfl⟩ : _ ∧ inner = inner' ∧ _ = outer' := by simpa using h
        exact ⟨hinner, List.forall_mem_cons.mpr ⟨hd', hrest'⟩⟩

/-- A name that is looked for among the functions around is found in the nearest one that has a
local of the name. -/
theorem resolveCapture_resolved {inner inner' : Draft} {outer outer' : List Draft}
    {index : Option UInt8}
    (h : Draft.resolveCapture name inner outer = (.ok index, inner', outer'))
    (hmarks : Marks inner.captures.toList outer outer) (hfew : inner.captures.size ≤ maxUpvalues)
    (houter : ∀ d ∈ outer, d.captures.size ≤ maxUpvalues ∧ d.locals.length ≤ maxLocals ∧
      Settled d.locals) : Resolved name inner outer index inner' outer' := by
  induction outer generalizing inner inner' outer' index with
  | nil =>
    simp only [Draft.resolveCapture, Prod.mk.injEq, Except.ok.injEq] at h
    obtain ⟨rfl, rfl, rfl⟩ := h
    exact ⟨⟨_, rfl, List.prefix_rfl⟩, hfew, .nil, by simp, by simp, by simp⟩
  | cons d rest ih =>
    obtain ⟨hself, hrest⟩ := hmarks.cons_self
    obtain ⟨⟨hd, hlength, hsettled⟩, htail⟩ := List.forall_mem_cons.mp houter
    have hsettled' : Settled d.locals.tail := fun l hl => hsettled l (List.mem_of_mem_tail hl)
    rw [Draft.resolveCapture] at h
    split at h
    · cases h
    · next slot hfind =>
      -- the function around has the local, which is marked
      generalize hadd : inner.addCapture ⟨true, slot.toUInt8⟩ = added at h
      obtain ⟨result, inner₁⟩ := added
      cases result with
      | error => cases h
      | ok i =>
        simp only [Except.map, Prod.mk.injEq, Except.ok.injEq] at h
        obtain ⟨rfl, rfl, rfl⟩ := h
        have hadded := addCapture_ok hadd
        have hbyte : slot.toUInt8.toNat = slot := by
          have : slot < 2 ^ 8 := Nat.lt_of_lt_of_le (slotsOf_markCaptured hsettled hfind).1 hlength
          exact UInt8.toNat_ofNat_of_lt this
        have hmark : _ = markLocals inner₁.captures.toList _ := markCaptured_eq hself hfind fun n => by
          rw [hadded.takesSlot hfew]
          simp only [hbyte, true_and, eq_comm (a := slot)]
        have hnames := (@localsLe_markCaptured name d.locals).scope_names
        refine ⟨hadded.recaptured, hadded.few hfew, ?_, ?_, ?_, by simp⟩
        · rw [hmark]
          exact .cons List.prefix_rfl hrest
        · exact List.forall_mem_cons.mpr ⟨hd, fun e he => (htail e he).1⟩
        · rintro _ ⟨rfl⟩
          have hfound : inner₁.captures.toList[i.toNat]? = some ⟨true, slot.toUInt8⟩ := by
            rw [Array.getElem?_toList]
            exact hadded.found hfew
          refine .local_ hfound ?_
          rw [hbyte]
          exact (declares_of_find? hsettled' hfind).congr hnames
    · next hfind =>
      generalize hrec : Draft.resolveCapture name d rest = found at h
      obtain ⟨result, d', rest'⟩ := found
      cases result with
      | error => cases h
      | ok found =>
        have hfound := ih hrec hrest hd htail
        obtain ⟨own, rfl, hown⟩ := hfound.inner
        cases found with
        | none =>
          simp only [Prod.mk.injEq, Except.ok.injEq] at h
          obtain ⟨rfl, rfl, rfl⟩ := h
          refine ⟨⟨_, rfl, List.prefix_rfl⟩, hfew, ?_, ?_, by simp, fun _ => ?_⟩
          · have : Marks inner.captures.toList _ _ := .cons hown hfound.marks
            rwa [hself] at this
          · exact List.forall_mem_cons.mpr ⟨hfound.few, hfound.fewAround⟩
          · exact List.forall_mem_cons.mpr ⟨lacks_of_find? hfind, hfound.lacks rfl⟩
        | some j =>
          -- the function around captures the variable, and so does this one
          generalize hadd : inner.addCapture ⟨false, j⟩ = added at h
          obtain ⟨result, inner₁⟩ := added
          cases result with
          | error => simp [hadd, Except.map] at h
          | ok i =>
            simp only [hadd, Except.map, Prod.mk.injEq, Except.ok.injEq] at h
            obtain ⟨rfl, rfl, rfl⟩ := h
            have hadded := addCapture_ok hadd
            have hsame : markLocals inner₁.captures.toList d.locals =
                markLocals inner.captures.toList d.locals := markLocals_congr (fun n => by
              rw [Bool.eq_iff_iff, hadded.takesSlot hfew]
              simp) d.locals
            refine ⟨hadded.recaptured, hadded.few hfew, ?_, ?_, ?_, by simp⟩
            · have : Marks inner₁.captures.toList _ _ := .cons hown hfound.marks
              rwa [hsame, hself] at this
            · exact List.forall_mem_cons.mpr ⟨hfound.few, hfound.fewAround⟩
            · rintro _ ⟨rfl⟩
              refine .upvalue (j := j) ?_ (lacks_of_find? hfind) (hfound.reaches j rfl)
              rw [Array.getElem?_toList]
              exact hadded.found hfew

end ScriptMachine.Compile
