import ScriptMachine.Compile.Scope
import ScriptMachine.Proofs.Compile.Constants

/-!
# Resolving names

A name that is a local of the function stands for the local's slot. A name that is a local of a
function around is captured by every function in between, and the local is marked as captured, so
the slot is an upvalue's when it leaves the stack. Any other name is a global.
-/

namespace ScriptMachine.Compile

variable {W W' : World} {s s' : State} {before : Heap} {d d' : Draft} {name : String}
  {K : World → State → Prop}

/-! ### Locals -/

/-- The slots below a local are those of the locals listed behind it. -/
theorem slotsOf_getElem? {pre rest : List Local} {l : Local} (hl : l.depth.isSome)
    (hs : Settled rest) : (slotsOf (pre ++ l :: rest))[rest.length]? = some l.slot := by
  have hsplit : slotsOf (pre ++ l :: rest) = slotsOf rest ++ l.slot :: slotsOf pre := by
    have hone : slotsOf [l] = [l.slot] := by simp [slotsOf, hl]
    rw [slotsOf_append, ← List.singleton_append, slotsOf_append, hone, List.append_assoc]
    rfl
  rw [hsplit, ← length_slotsOf hs, List.getElem?_append_right (Nat.le_refl _), Nat.sub_self]
  rfl

/-- The local that a name stands for. -/
theorem find?_eq_some {ls : List Local} {slot : Nat} {ready : Bool}
    (h : Local.find? name ls = some (slot, ready)) : ∃ pre l rest, ls = pre ++ l :: rest ∧
      l.name = name ∧ slot = rest.length ∧ ready = l.depth.isSome ∧ ∀ m ∈ pre, m.name ≠ name := by
  induction ls with
  | nil => simp [Local.find?] at h
  | cons m ls ih =>
    rw [Local.find?] at h
    split at h
    · next hname =>
      simp only [Option.some.injEq, Prod.mk.injEq] at h
      exact ⟨[], m, ls, rfl, hname, h.1.symm, h.2.symm, by simp⟩
    · next hname =>
      obtain ⟨pre, l, rest, rfl, hl, hslot, hready, hpre⟩ := ih h
      refine ⟨m :: pre, l, rest, rfl, hl, hslot, hready, ?_⟩
      intro x hx
      rcases List.mem_cons.mp hx with rfl | hx
      · exact hname
      · exact hpre x hx

/-- A name that is not found is the name of no local. -/
theorem find?_eq_none {ls : List Local} (h : Local.find? name ls = none) :
    ∀ l ∈ ls, l.name ≠ name := by
  induction ls with
  | nil => simp
  | cons m ls ih =>
    rw [Local.find?] at h
    split at h
    · simp at h
    · next hname =>
      intro l hl
      rcases List.mem_cons.mp hl with rfl | hl
      · exact hname
      · exact ih h l hl

/-- Locals grow when one is captured. -/
theorem localsLe_markCaptured (ls : List Local) : LocalsLe ls (Local.markCaptured name ls) := by
  induction ls with
  | nil => exact .nil
  | cons l ls ih =>
    rw [Local.markCaptured]
    split
    · exact .cons ⟨rfl, rfl, fun _ => rfl⟩ (LocalsLe.refl ls)
    · exact .cons (.refl l) ih

/-- The innermost local of the name is captured. -/
theorem markCaptured_append {pre rest : List Local} {l : Local} (hl : l.name = name)
    (hpre : ∀ m ∈ pre, m.name ≠ name) : Local.markCaptured name (pre ++ l :: rest) =
      pre ++ { l with captured := true } :: rest := by
  induction pre with
  | nil => simp [Local.markCaptured, hl]
  | cons m pre ih =>
    rw [List.cons_append, Local.markCaptured, if_neg (hpre m List.mem_cons_self),
      ih fun x hx => hpre x (List.mem_cons_of_mem _ hx)]
    rfl

/-- The slot of a captured local is marked. -/
theorem slotsOf_markCaptured {ls : List Local} {slot : Nat} (hs : Settled ls)
    (h : Local.find? name ls = some (slot, true)) :
    slot < ls.length ∧ (slotsOf (Local.markCaptured name ls))[slot]? =
      some ⟨contentOf name, true⟩ := by
  obtain ⟨pre, l, rest, rfl, hl, rfl, hready, hpre⟩ := find?_eq_some h
  have hrest : Settled rest := fun m hm =>
    hs m (List.mem_append_right _ (List.mem_cons_of_mem _ hm))
  rw [markCaptured_append hl hpre]
  refine ⟨by simp; omega, ?_⟩
  rw [slotsOf_getElem? (l := { l with captured := true }) hready.symm hrest, Local.slot, hl]

/-! ### Captures -/

/-- A draft with more captures and marks. -/
def Recaptured (d d' : Draft) : Prop :=
  ∃ locals captures, d' = { d with locals := locals, captures := captures } ∧
    LocalsLe d.locals locals ∧ d.captures.toList <+: captures.toList

/-- Every function is itself without a new capture. -/
theorem Recaptured.refl (d : Draft) : Recaptured d d := ⟨d.locals, d.captures, rfl, .refl _, List.prefix_rfl⟩

/-- New captures are all that changes. -/
theorem Recaptured.outgrown (h : Recaptured d d') : Outgrown W W d d' := by
  obtain ⟨locals, captures, rfl, hlocals, hcaptures⟩ := h
  exact ⟨⟨rfl, rfl, rfl, rfl, List.prefix_rfl, hcaptures⟩, rfl, rfl, hlocals⟩

/-- A capture that was found or added. -/
structure Added (c : Capture) (d : Draft) (i : UInt8) (d' : Draft) : Prop where
  recaptured : ∃ captures, d' = { d with captures := captures } ∧
    d.captures.toList <+: captures.toList
  found : d.captures.size ≤ maxUpvalues → d'.captures[i.toNat]? = some c
  few : d.captures.size ≤ maxUpvalues → d'.captures.size ≤ maxUpvalues
  mem : ∀ x ∈ d'.captures, x ∈ d.captures ∨ x = c

/-- A capture is found or added, or there are too many. -/
theorem addCapture_spec (d : Draft) (c : Capture) :
    (∃ i d', d.addCapture c = (.ok i, d') ∧ Added c d i d') ∨
      d.addCapture c = (.error .tooManyUpvalues, d) := by
  unfold Draft.addCapture
  split
  · next i hi =>
    obtain ⟨hlt, hc, -⟩ := Array.findIdx?_eq_some_iff_getElem.mp hi
    refine .inl ⟨_, _, rfl, ⟨d.captures, rfl, List.prefix_rfl⟩, fun hfew => ?_, id, fun _ => .inl⟩
    have hbyte : i.toUInt8.toNat = i := by
      have : i < 2 ^ 8 := Nat.lt_of_lt_of_le hlt hfew
      exact UInt8.toNat_ofNat_of_lt this
    rw [hbyte, Array.getElem?_eq_getElem hlt, of_decide_eq_true hc]
  · split
    · next hroom =>
      refine .inl ⟨_, _, rfl, ⟨_, rfl, by simp⟩, fun _ => ?_, fun _ => ?_, fun x hx => ?_⟩
      · have hbyte : d.captures.size.toUInt8.toNat = d.captures.size := by
          have : d.captures.size < 2 ^ 8 := hroom
          exact UInt8.toNat_ofNat_of_lt this
        rw [hbyte]
        exact Array.getElem?_push_size
      · show (d.captures.push c).size ≤ maxUpvalues
        rw [Array.size_push]
        omega
      · exact Array.mem_push.mp hx
    · exact .inr rfl

/-- What resolving a name among the functions around does to a well-formed stack of drafts. -/
structure Captured (name : String) (inner : Draft) (outer : List Draft)
    (result : Except Problem (Option UInt8)) (inner' : Draft) (outer' : List Draft) : Prop where
  innermost : ∃ captures, inner' = { inner with captures := captures } ∧
    inner.captures.toList <+: captures.toList
  around : List.Forall₂ Recaptured outer outer'
  few : inner.captures.size ≤ maxUpvalues → inner'.captures.size ≤ maxUpvalues
  fewAround : (∀ d ∈ outer, d.captures.size ≤ maxUpvalues) →
    ∀ d ∈ outer', d.captures.size ≤ maxUpvalues
  captures : (∀ d ∈ inner :: outer, d.captures.size ≤ maxUpvalues) →
    (∀ d ∈ outer, Settled d.locals ∧ d.locals.length ≤ maxLocals) →
    CapturesOk (inner :: outer) → CapturesOk (inner' :: outer') ∧
      ∀ i, result = .ok (some i) →
        (captureContents (inner' :: outer'))[i.toNat]? = some (contentOf name)
  absent : result = .ok none → ∀ d ∈ outer, ∀ l ∈ d.locals, l.name ≠ name

/-- Functions with new captures are marked. -/
theorem marked_of_recaptured {ds ds' : List Draft} (h : List.Forall₂ Recaptured ds ds') :
    Marked ds ds' := h.imp fun _ _ hd => ⟨(hd.outgrown (W := .nothing)).locals,
      (hd.outgrown (W := .nothing)).captures⟩

/-- What a listed capture holds. -/
theorem captureContents_getElem? {inner : Draft} {outer : List Draft} {i : Nat} {c : Capture}
    (hc : inner.captures[i]? = some c) : (captureContents (inner :: outer))[i]? =
      some (captureContent outer (captureContents outer) c) := by
  have hlist : inner.captures.toList[i]? = some c := by
    rw [Array.getElem?_toList]
    exact hc
  rw [captureContents, List.getElem?_map, hlist]
  rfl

/-- Nothing was captured. -/
theorem captured_same {inner : Draft} {outer : List Draft}
    {result : Except Problem (Option UInt8)} (hnot : ∀ i, result ≠ .ok (some i))
    (habsent : result = .ok none → ∀ d ∈ outer, ∀ l ∈ d.locals, l.name ≠ name) :
    Captured name inner outer result inner outer :=
  ⟨⟨_, rfl, List.prefix_rfl⟩, List.forall₂_same.mpr fun d _ => .refl d, id, id,
    fun _ _ hc => ⟨hc, fun i hi => absurd hi (hnot i)⟩, habsent⟩

/-- The innermost function captures what the functions around provide. -/
theorem captured_add {c : Capture} {inner : Draft} {outer outer' : List Draft}
    (haround : List.Forall₂ Recaptured outer outer')
    (hfew : (∀ d ∈ outer, d.captures.size ≤ maxUpvalues) →
      ∀ d ∈ outer', d.captures.size ≤ maxUpvalues)
    (hok : (∀ d ∈ outer, d.captures.size ≤ maxUpvalues) →
      (∀ d ∈ outer, Settled d.locals ∧ d.locals.length ≤ maxLocals) → CapturesOk outer →
      CapturesOk outer' ∧ CaptureOk outer' c ∧
        captureContent outer' (captureContents outer') c = contentOf name) :
    Captured name inner outer ((inner.addCapture c).1.map some) (inner.addCapture c).2 outer' := by
  have hold (hc : CapturesOk (inner :: outer)) : ∀ x ∈ inner.captures, CaptureOk outer' x :=
    fun x hx => (hc.1 x hx).mono (marked_of_recaptured haround)
  rcases addCapture_spec inner c with ⟨i, inner', heq, hadd⟩ | heq
  · rw [heq]
    refine ⟨hadd.recaptured, haround, hadd.few, hfew, fun hsize hsettled hc => ?_,
      by simp [Except.map]⟩
    obtain ⟨hinner, houter⟩ := List.forall_mem_cons.mp hsize
    obtain ⟨hcaptures, hcapture, hcontent⟩ := hok houter hsettled hc.2
    refine ⟨⟨fun x hx => ?_, hcaptures⟩, fun j hj => ?_⟩
    · rcases hadd.mem x hx with hx | rfl
      · exact hold hc x hx
      · exact hcapture
    · simp only [Except.map, Except.ok.injEq, Option.some.injEq] at hj
      subst hj
      rw [captureContents_getElem? (hadd.found hinner), hcontent]
  · rw [heq]
    refine ⟨⟨_, rfl, List.prefix_rfl⟩, haround, id, hfew, fun hsize hsettled hc => ⟨⟨hold hc, ?_⟩,
      by simp [Except.map]⟩, by simp [Except.map]⟩
    exact (hok (List.forall_mem_cons.mp hsize).2 hsettled hc.2).1

/-- A name is found outward, by induction on the functions around. -/
theorem resolveCapture_spec (name : String) (outer : List Draft) (inner : Draft) :
    Captured name inner outer (Draft.resolveCapture name inner outer).1
      (Draft.resolveCapture name inner outer).2.1 (Draft.resolveCapture name inner outer).2.2 := by
  induction outer generalizing inner with
  | nil => exact captured_same (by simp [Draft.resolveCapture]) (by simp)
  | cons d rest ih =>
    rw [Draft.resolveCapture]
    split
    · exact captured_same (by simp) (by simp)
    · next slot hfind =>
      refine captured_add (.cons ⟨_, _, rfl, localsLe_markCaptured _, List.prefix_rfl⟩
        (List.forall₂_same.mpr fun d _ => .refl d)) (fun h => ?_) fun _ hsettled hc => ?_
      · exact List.forall_mem_cons.mpr (List.forall_mem_cons.mp h)
      · obtain ⟨hslots, hlocals⟩ := hsettled d List.mem_cons_self
        obtain ⟨hlt, hslot⟩ := slotsOf_markCaptured hslots hfind
        have hbyte : slot.toUInt8.toNat = slot := by
          have : slot < 2 ^ 8 := Nat.lt_of_lt_of_le hlt hlocals
          exact UInt8.toNat_ofNat_of_lt this
        refine ⟨hc, ⟨_, _, rfl, ?_⟩, ?_⟩
        · rw [if_pos rfl, hbyte]
          exact ⟨_, hslot, rfl⟩
        · rw [captureContent, if_pos rfl, List.head?_cons, Option.bind_some, hbyte]
          show (Option.map Slot.content (slotsOf (Local.markCaptured name d.locals))[slot]?).getD
            .any = _
          rw [hslot]
          rfl
    · next hfind =>
      have hrec := ih d
      obtain ⟨captures, hd', hprefix⟩ := hrec.innermost
      have haround := List.Forall₂.cons (R := Recaptured)
        ⟨_, captures, hd', LocalsLe.refl _, hprefix⟩ hrec.around
      have hfew (h : ∀ e ∈ d :: rest, e.captures.size ≤ maxUpvalues) :
          ∀ e ∈ (Draft.resolveCapture name d rest).2.1 :: (Draft.resolveCapture name d rest).2.2,
            e.captures.size ≤ maxUpvalues :=
        List.forall_mem_cons.mpr ⟨hrec.few (List.forall_mem_cons.mp h).1,
          hrec.fewAround (List.forall_mem_cons.mp h).2⟩
      split
      · next i d' rest' heq =>
        rw [heq] at hrec haround hfew
        refine captured_add haround hfew fun hsize hsettled hc => ?_
        obtain ⟨hok, hcontent⟩ := hrec.captures hsize (List.forall_mem_cons.mp hsettled).2 hc
        have hat := hcontent i rfl
        refine ⟨hok, ⟨_, _, rfl, ?_⟩, ?_⟩
        · have := (List.getElem?_eq_some_iff.mp hat).1
          simpa [captureContents] using this
        · rw [captureContent, if_neg (by simp), hat]
          rfl
      · next result d' rest' hnot heq =>
        rw [heq] at hrec haround hfew
        refine ⟨⟨_, rfl, List.prefix_rfl⟩, haround, id, hfew, fun hsize hsettled hc => ⟨⟨?_, ?_⟩, ?_⟩, ?_⟩
        · exact fun c hmem => (hc.1 c hmem).mono (marked_of_recaptured haround)
        · exact (hrec.captures (List.forall_mem_cons.mp hsize).2
            (List.forall_mem_cons.mp hsettled).2 hc.2).1
        · intro i hi
          exact (hnot i hi).elim
        · intro hnone
          exact List.forall_mem_cons.mpr ⟨find?_eq_none hfind, hrec.absent hnone⟩

/-- More captures and marks leave the constants. -/
theorem recaptured_constants {ds ds' : List Draft} (h : List.Forall₂ Recaptured ds ds') :
    ds.flatMap (·.chunk.constants.toList) = ds'.flatMap (·.chunk.constants.toList) := by
  induction h with
  | nil => rfl
  | cons hrec _ ih =>
    obtain ⟨_, _, rfl, -⟩ := hrec
    rw [List.flatMap_cons, List.flatMap_cons, ih]

/-- A draft with more captures and marks is in order as long as the captures are few. -/
theorem DraftOk.recaptured (hd : DraftOk W d) (h : Recaptured d d')
    (hfew : d'.captures.size ≤ maxUpvalues) : DraftOk W d' := by
  obtain ⟨locals, captures, rfl, hlocals, -⟩ := h
  refine ⟨hd.name, hd.constants, hd.pool, hd.few, hd.lines, hlocals.length_eq ▸ hd.slots, hfew,
    ?_, ?_, ?_⟩
  · show Settled locals.tail
    have hsettled := hd.settled
    generalize d.locals = ls at hlocals hsettled
    cases hlocals with
    | nil => exact hsettled
    | cons _ htail => exact LocalsLe.settled htail hsettled
  · intro hnil
    have hlen : (slotsOf d.locals).length = (slotsOf locals).length := hlocals.slots.length_eq
    have hnil' : slotsOf locals = [] := hnil
    rw [hnil', List.length_nil, List.length_eq_zero_iff] at hlen
    exact hd.inhabited hlen
  · intro m hm k hk
    obtain ⟨l, hl, hle⟩ := exists_of_mem_right hlocals hm
    exact hd.depth l hl k (hle.depth.symm.trans hk)

/-- The state after a name was looked for among the functions around. -/
def State.Searched (s : State) (name : String) : Option UInt8 → State → Prop := fun index s' =>
  ∃ draft enclosing, s' = { s with draft := draft, enclosing := enclosing } ∧
    Captured name s.draft s.enclosing (.ok index) draft enclosing

/-- A capture leaves the constants live. -/
theorem State.Live.captured {draft : Draft} {enclosing : List Draft}
    {result : Except Problem (Option UInt8)} (hl : s.Live before)
    (h : Captured name s.draft s.enclosing result draft enclosing) :
    ({ s with draft := draft, enclosing := enclosing } : State).Live before := by
  refine hl.change (.refl _) rfl ?_
  intro d' hd'
  rcases List.mem_cons.mp hd' with rfl | hd'
  · obtain ⟨captures, rfl, -⟩ := h.innermost
    exact ⟨s.draft, List.mem_cons_self, rfl, fun _ => id⟩
  · obtain ⟨d, hd, _, _, rfl, -⟩ := exists_of_mem_right h.around hd'
    exact ⟨d, List.mem_cons_of_mem _ hd, rfl, fun _ => id⟩

/-- A variable of a function around is captured, or none is found. -/
theorem does_captureVariable (hl : s.Live before) :
    Does before s (captureVariable name s) (s.Searched name) := by
  have hspec := resolveCapture_spec name s.enclosing s.draft
  unfold captureVariable
  generalize Draft.resolveCapture name s.draft s.enclosing = found at hspec ⊢
  obtain ⟨result, draft, enclosing⟩ := found
  cases result with
  | ok index => exact .ok (hl.captured hspec) ⟨rfl, rfl, Nat.le_refl _⟩ ⟨_, _, rfl, hspec⟩
  | error p =>
    have hl' : ({ s with draft := draft, enclosing := enclosing } : State).Live before :=
      hl.captured hspec
    exact (does_failBefore (Q := s.Searched name) hl').earlier
      (s := { s with draft := draft, enclosing := enclosing }) ⟨rfl, rfl, Nat.le_refl _⟩

/-- Looking for a name keeps everything in order; what was captured is what the name stands for,
and if nothing was, no function around has a local of the name. -/
theorem State.Searched.carries (before : Heap) {index : Option UInt8} (h : s.Searched name index s')
    (hr : s.Ready W) : Carries before W W s s' [] ∧
      (∀ i, index = some i →
        (s'.view W).context.captures[i.toNat]? = some (contentOf name)) ∧
      (index = none → ∀ d ∈ s.enclosing, ∀ l ∈ d.locals, l.name ≠ name) := by
  obtain ⟨draft, enclosing, rfl, h⟩ := h
  have hfew : ∀ d ∈ s.drafts, d.captures.size ≤ maxUpvalues := fun d hd =>
    (hr.drafts d hd).variables_
  have hfew' := List.forall_mem_cons.mp hfew
  have hsettled : ∀ d ∈ s.enclosing, Settled d.locals ∧ d.locals.length ≤ maxLocals :=
    fun d hd => ⟨hr.enclosing d hd, (hr.drafts d (List.mem_cons_of_mem _ hd)).slots⟩
  obtain ⟨hcaptures, hfound⟩ := h.captures hfew hsettled hr.captures
  obtain ⟨captures, hdraft, hprefix⟩ := h.innermost
  have hinner : Recaptured s.draft draft := ⟨_, captures, hdraft, .refl _, hprefix⟩
  have hready : ({ s with draft := draft, enclosing := enclosing } : State).Ready W := by
    refine ⟨hr.fits, hr.clean, hr.tokens, ?_, ?_, hcaptures, ?_, ?_, ?_⟩
    · intro d' hd'
      rcases List.mem_cons.mp hd' with rfl | hd'
      · exact (hr.drafts _ List.mem_cons_self).recaptured hinner (h.few hfew'.1)
      · obtain ⟨d, hd, hrec⟩ := exists_of_mem_right h.around hd'
        exact (hr.drafts d (List.mem_cons_of_mem _ hd)).recaptured hrec
          (h.fewAround hfew'.2 d' hd')
    · intro d' hd'
      obtain ⟨d, hd, _, _, rfl, hlocals, -⟩ := exists_of_mem_right h.around hd'
      exact hlocals.settled (hr.enclosing d hd)
    · intro hdepth
      subst hdraft
      obtain ⟨hnil, hlocals⟩ := hr.global hdepth
      refine ⟨?_, hlocals⟩
      rw [← List.length_eq_zero_iff, ← h.around.length_eq, hnil, List.length_nil]
    · intro hclass
      obtain ⟨d, hd, l, hmem, hname⟩ := hr.super hclass
      have hall : List.Forall₂ Recaptured s.drafts (draft :: enclosing) := .cons hinner h.around
      obtain ⟨_, hd', locals, captures, rfl, hle, -⟩ := exists_of_mem_left hall hd
      obtain ⟨l', hmem', hl'⟩ := exists_of_mem_left hle hmem
      exact ⟨_, hd', l', hmem', hl'.name.trans hname⟩
    · rw [State.constants, State.drafts, ← recaptured_constants (.cons hinner h.around)]
      exact hr.planted
  have hgrown := hinner.outgrown (W := W)
  refine ⟨⟨⟨hready, rfl, hgrown.toGrown, ?_, h.around.imp fun _ _ => Recaptured.outgrown, rfl,
    fun _ _ _ ht => ht⟩, hgrown.locals⟩, fun i hi => hfound i (by rw [hi]), fun hnone =>
      h.absent (by rw [hnone])⟩
  show draft.chunk.code.toList = _
  rw [hgrown.chunk, List.append_nil]

/-! ### Access -/

/-- A fact that is not about the state. -/
def Fact (p : Prop) : World → State → Prop := fun _ _ => p

instance (p : Prop) : Stable (Fact p) := ⟨fun _ _ hp => hp⟩

/-- Where the variable of a name is: a slot of the function, one of its captured variables, or a
global, if no function around has a local of that name. -/
def Found (name : String) : Access → World → State → Prop
  | .local_ slot, _, s => Local.find? name s.draft.locals = some (slot.toNat, true)
  | .upvalue index, W, s => s.enclosing ≠ [] ∧ Local.find? name s.draft.locals = none ∧
    (s.view W).context.captures[index.toNat]? = some (contentOf name)
  | .global k, W, s => Named k name W s ∧ ∀ d ∈ s.drafts, ∀ l ∈ d.locals, l.name ≠ name

/-- An element of a prefix is an element of the list. -/
theorem prefix_getElem? {α : Type} {as bs : List α} {i : Nat} {a : α} (h : as <+: bs)
    (ha : as[i]? = some a) : bs[i]? = some a := by
  obtain ⟨rest, rfl⟩ := h
  rw [List.getElem?_append_left (List.getElem?_eq_some_iff.mp ha).1]
  exact ha

/-- Which local a name stands for does not depend on marks. -/
theorem LocalsLe.find? {ls ms : List Local} (h : LocalsLe ls ms) :
    Local.find? name ms = Local.find? name ls := by
  induction h with
  | nil => rfl
  | @cons l m _ _ hl htail ih => rw [Local.find?, Local.find?, hl.name, hl.depth, htail.length_eq, ih]

/-- A name that no local has is not the name of grown ones. -/
theorem LocalsLe.names {ls ms : List Local} (h : LocalsLe ls ms) (hne : ∀ l ∈ ls, l.name ≠ name) :
    ∀ m ∈ ms, m.name ≠ name := by
  intro m hm hname
  obtain ⟨l, hl, hle⟩ := exists_of_mem_right h hm
  exact hne l hl (hle.name.symm.trans hname)

instance (name : String) (access : Access) : Stable (Found name access) := by
  refine ⟨fun {before W W' s s' code} hc hr hk => ?_⟩
  cases access with
  | local_ slot => exact hc.locals.find?.trans hk
  | upvalue index =>
    refine ⟨fun hnil => hk.1 ?_, hc.locals.find?.trans hk.2.1,
      prefix_getElem? (hc.view_le hr).context.captures hk.2.2⟩
    rw [← List.length_eq_zero_iff, hc.emits.enclosing.length_eq, hnil, List.length_nil]
  | global k =>
    refine ⟨Stable.carry hc hr hk.1, List.forall_mem_cons.mpr ⟨?_, fun d' hd' => ?_⟩⟩
    · exact hc.locals.names (hk.2 _ List.mem_cons_self)
    · obtain ⟨d, hd, hgrown⟩ := exists_of_mem_right hc.emits.enclosing hd'
      exact hgrown.locals.names (hk.2 d (List.mem_cons_of_mem _ hd))

/-- A name is resolved to a local, to a capture or to a global. -/
theorem finds_resolve : Finds before K (resolve name) (Found name) := by
  intro s hl
  refine (does_look (Q := fun found s' => s' = s ∧ found = Local.find? name s.draft.locals) hl
    ⟨rfl, rfl⟩).bind fun found s' hl' _ hfound => ?_
  obtain ⟨rfl, hfound⟩ := hfound
  rcases found with _ | ⟨slot, _ | _⟩
  · refine (does_captureVariable hl').bind fun index s₁ hl₁ hlater hs => ?_
    cases index with
    | some i =>
      refine does_pure hl₁ fun W hr _ _ => ?_
      obtain ⟨hc, hindex, -⟩ := hs.carries before hr
      refine ⟨W, hc, fun hnil => ?_, hc.locals.find?.trans hfound.symm, hindex i rfl⟩
      obtain ⟨hnone, -⟩ := List.getElem?_eq_some_iff.mp (hindex i rfl)
      have hcaptures := hc.ready.captures.1
      rw [hnil] at hcaptures
      have hlt : i.toNat < s₁.draft.captures.toList.length := by
        simpa [State.view, State.drafts, captureContents_cons] using hnone
      obtain ⟨_, _, heq, -⟩ := hcaptures _ (Array.mem_toList_iff.mp (List.getElem_mem hlt))
      cases heq
    | none =>
      refine (finds_nameConstant (K := Always) s₁ hl₁).bind fun k s₂ hl₂ hlater' hk => ?_
      refine does_pure hl₂ fun W hr _ hclean => ?_
      obtain ⟨hc, -, habsent⟩ := hs.carries before hr
      obtain ⟨W', hc', hname⟩ := hk W hc.ready trivial hclean
      refine ⟨W', hc.trans hc', hname, List.forall_mem_cons.mpr ⟨?_, fun d' hd' => ?_⟩⟩
      · exact (hc.trans hc').locals.names (find?_eq_none hfound.symm)
      · obtain ⟨d, hd, hgrown⟩ := exists_of_mem_right (hc.trans hc').emits.enclosing hd'
        exact hgrown.locals.names (habsent rfl d hd)
  · exact does_failBefore hl'
  · refine does_pure hl' fun W hr _ _ => ⟨W, State.Moved.carries (.refl _) hr, ?_⟩
    obtain ⟨front, l, rest, hlocals, -, rfl, -, -⟩ := find?_eq_some hfound.symm
    have hslots := (hr.drafts s'.draft List.mem_cons_self).slots
    rw [hlocals, List.length_append, List.length_cons] at hslots
    have hbyte : rest.length.toUInt8.toNat = rest.length := by
      have : rest.length < 2 ^ 8 := by
        simp only [maxLocals] at hslots
        omega
      exact UInt8.toNat_ofNat_of_lt this
    rw [Found, hbyte]
    exact hfound.symm

/-- The slot of a local that a name stands for. -/
theorem State.Ready.slot {slot : Nat} (hr : s.Ready W)
    (hf : Local.find? name s.draft.locals = some (slot, true)) :
    ∃ a, s.draft.slots[slot]? = some a ∧ a.content = contentOf name := by
  obtain ⟨front, l, rest, hlocals, hname, rfl, hready, -⟩ := find?_eq_some hf
  have hsettled := (hr.drafts s.draft List.mem_cons_self).settled
  have hrest : Settled rest := by
    intro m hm
    refine hsettled m ?_
    rw [hlocals]
    cases front with
    | nil => exact hm
    | cons x front => exact List.mem_append_right _ (List.mem_cons_of_mem _ hm)
  refine ⟨l.slot, ?_, by rw [Local.slot, hname]⟩
  rw [Draft.slots, hlocals]
  exact slotsOf_getElem? hready.symm hrest

/-- Reading a variable pushes what is in it, whatever that is known to be. -/
theorem get_fragment {access : Access} {V : View} {S T : List Slot} {g : Option String}
    (hr : s.Ready W) (hf : Found name access W s) (hsuper : name = "super" → InSubclass W s)
    (hV : (s.view W).Le V) (hS : SlotsFit S (V.slots ++ T)) : ∃ c, c.Fits (contentOf name) ∧
      Fragment V.context ⟨S, g⟩ [access.get.encode] ⟨S ++ [⟨c, false⟩], g⟩ := by
  cases access with
  | local_ slot =>
    obtain ⟨a, ha, hcontent⟩ := hr.slot hf
    obtain ⟨b, hb, hup⟩ := hV.slots.slot ha
    have hlt : slot.toNat < V.slots.length := (List.getElem?_eq_some_iff.mp hb).1
    have hltS : slot.toNat < S.length := by
      rw [hS.length_eq, List.length_append]
      omega
    have hfits := (List.forall₂_iff_get.mp hS).2 slot.toNat hltS (hS.length_eq ▸ hltS)
    rw [List.get_eq_getElem, List.get_eq_getElem, List.getElem_append_left hlt,
      (List.getElem?_eq_some_iff.mp hb).2] at hfits
    refine ⟨S[slot.toNat].content, ?_, .instr (.getLocal ?_)⟩
    · rw [← hcontent, hup.content]
      exact hfits.content
    · rw [UInt8.toNat_toUInt16, List.getElem?_eq_getElem hltS]
  | upvalue index =>
    refine ⟨_, .refl _, .instr (.getUpvalue ?_)⟩
    rw [UInt8.toNat_toUInt16]
    exact prefix_getElem? hV.context.captures hf.2.2
  | global k =>
    have hne : name ≠ "super" := by
      intro h
      obtain ⟨d, hd, l, hmem, hlocal⟩ := hr.super (hsuper h)
      exact hf.2 d hd l hmem (hlocal.trans h.symm)
    rw [contentOf, if_neg hne]
    exact ⟨_, .refl _, .instr (.getGlobal (names_mono hf.1 hV.context))⟩

/-- Reading a variable that a source can name pushes a temporary. -/
theorem may_get {access : Access} (hname : ∀ W s, K W s → name ≠ "super") :
    May (Both K (Found name access)) access.get [] [.value] := by
  intro W s hr hk V hV T
  have hne := hname W s hk.1
  obtain ⟨c, -, h⟩ := get_fragment (T := T) (g := none) hr hk.2 (fun h => absurd h hne) hV
    (.refl _)
  rw [List.append_nil]
  have hfits : Shape.Fits ⟨V.slots ++ T ++ [⟨c, false⟩], none⟩
      (.plain (V.slots ++ T ++ [.value])) :=
    Shape.fits_plain (.append (.refl _) (.cons ⟨Content.fits_any _, by simp⟩ .nil))
  have := Fragment.append h (.nil hfits)
  rwa [List.append_nil] at this

/-- Reading the variable of a superclass pushes a class. -/
theorem may_get_super {access : Access} (hin : ∀ W s, K W s → InSubclass W s) :
    May (Both K (Found "super" access)) access.get [] [.aClass] := by
  intro W s hr hk V hV T
  obtain ⟨c, hc, h⟩ := get_fragment (T := T) (g := none) hr hk.2 (fun _ => hin W s hk.1) hV
    (.refl _)
  rw [List.append_nil]
  rw [contentOf, if_pos rfl] at hc
  rcases hc with hc | rfl
  · cases hc
  · exact h

/-- Writing a variable keeps the value on top of the stack. -/
theorem may_set {access : Access} (hname : ∀ W s, K W s → name ≠ "super") :
    May (Both K (Found name access)) access.set [.value] [.value] := by
  intro W s hr hk V hV T
  have hany : contentOf name = .any := if_neg (hname W s hk.1)
  have hne : V.slots ++ T ≠ [] := by simp [hr.slots_ne_nil hV]
  have hplain {i : Instr} (hi : Plain V.context i 1 1) :
      Fragment V.context (.plain (V.slots ++ T ++ [.value])) [i.encode]
        (.plain (V.slots ++ T ++ [.value])) := .instr (.plain (g := none) hi hne)
  cases access with
  | local_ slot =>
    obtain ⟨a, ha, hcontent⟩ := hr.slot hk.2
    obtain ⟨b, hb, hup⟩ := hV.slots.slot ha
    refine .instr (.setLocal (a := b) ?_ ?_)
    · rw [UInt8.toNat_toUInt16, List.getElem?_append_left (List.getElem?_eq_some_iff.mp hb).1, hb]
    · rw [← hup.content, hcontent, hany]
  | upvalue index =>
    refine hplain (.setUpvalue ?_)
    rw [UInt8.toNat_toUInt16, ← hany]
    exact prefix_getElem? hV.context.captures hk.2.2.2
  | global k => exact hplain (.setGlobal (names_mono hk.2.1 hV.context))

end ScriptMachine.Compile
