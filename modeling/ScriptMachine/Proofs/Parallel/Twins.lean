import ScriptMachine.Proofs.Parallel.Compiling
import ScriptMachine.Proofs.Parallel.Running
import ScriptMachine.Proofs.Scoping.Resolving

/-!
# One tree translated in two scripts

A tree may be translated twice, behind different code of different scripts and at different places of
their sources. Then the drafts of the functions inside correspond, but the scripts themselves need
not: their code differs by what was there before, and one of them may have some constants already.
What is added to them is aligned: it has the same instructions, and the constants that these name are
linked, because the values correspond.

Two states of the compiler where this holds are twins.
-/

namespace ScriptMachine

/-! ### Aligned code -/

/-- An instruction that the code of a script may have outside of all functions: it does not return,
and slot zero is not read. A closure is told by more than its instruction. -/
structure Instr.Outermost (i : Instr) : Prop where
  stays : i ≠ .return_
  closure : ∀ k, i ≠ .closure k
  slot : ∀ k, i = .getLocal k → 0 < k.toNat

/-- An instruction that neither returns, nor makes a closure, nor reads a slot. -/
def Instr.isFree : Instr → Bool
  | .return_ | .closure _ | .getLocal _ => false
  | _ => true

/-- What neither returns, nor makes a closure, nor reads a slot may stand outside of all functions.
-/
theorem Instr.Outermost.of_free {i : Instr} (h : i.isFree = true) : i.Outermost where
  stays := by
    rintro rfl
    cases h
  closure := by
    rintro k rfl
    cases h
  slot := by
    rintro k rfl
    cases h

/-- Words of two scripts that have the same instructions, which name linked constants. The functions
inside capture no slot zero, and as many variables as `C` tells of them. -/
inductive Aligned (L : UInt16 → UInt16 → Prop) (C : UInt16 → Nat → Prop) :
    List UInt32 → List UInt32 → Prop
  | nil : Aligned L C [] []
  | instr {i j : Instr} {v w : List UInt32} (alike : Instr.Alike L i j) (outermost : i.Outermost)
      (rest : Aligned L C v w) : Aligned L C (i.encode :: v) (j.encode :: w)
  | closure {k l : UInt16} {captures : List Capture} {v w : List UInt32} (link : L k l)
      (count : C k captures.length)
      (above : ∀ c ∈ captures, c.isLocal = true → 0 < c.index.toNat) (rest : Aligned L C v w) :
      Aligned L C ((Instr.closure k).encode :: captures.map Capture.encode ++ v)
        ((Instr.closure l).encode :: captures.map Capture.encode ++ w)

namespace Aligned

variable {L L' : UInt16 → UInt16 → Prop} {C C' : UInt16 → Nat → Prop} {v v' w w' : List UInt32}

/-- Aligned words stay aligned one behind the other. -/
theorem append (h : Aligned L C v w) (h' : Aligned L C v' w') :
    Aligned L C (v ++ v') (w ++ w') := by
  induction h with
  | nil => exact h'
  | instr alike outermost _ ih => exact .instr alike outermost ih
  | closure link count above _ ih =>
    rw [List.append_assoc, List.append_assoc]
    exact .closure link count above ih

/-- What is aligned by less is aligned by more. -/
theorem imp (h : Aligned L C v w) (hL : ∀ k l, L k l → L' k l) (hC : ∀ k n, C k n → C' k n) :
    Aligned L' C' v w := by
  induction h with
  | nil => exact .nil
  | instr alike outermost _ ih => exact .instr (alike.imp hL) outermost ih
  | closure link count above _ ih => exact .closure (hL _ _ link) (hC _ _ count) above ih

/-- Aligned words are as many. -/
theorem length (h : Aligned L C v w) : v.length = w.length := by
  induction h with
  | nil => rfl
  | instr _ _ _ ih => simp [ih]
  | closure _ _ _ _ ih => simp [ih]

/-- Instructions that are alike are aligned. -/
theorem one {i j : Instr} (alike : Instr.Alike L i j) (outermost : i.Outermost) :
    Aligned L C [i.encode] [j.encode] := .instr alike outermost .nil

end Aligned

/-! ### Twin drafts -/

namespace Compile

/-- Locals that are the same but for the place of the source where they were declared. -/
structure Local.Same (l m : Local) : Prop where
  name : l.name = m.name
  depth : l.depth = m.depth
  captured : l.captured = m.captured

/-- The lowest local is the one of slot zero of a script, which no function captures. -/
inductive Rooted : List Local → Prop
  | root {l : Local} (name : l.name = "") (depth : l.depth = some 0)
      (captured : l.captured = false) : Rooted [l]
  | above {l : Local} {ls : List Local} (rest : Rooted ls) : Rooted (l :: ls)

/-- The draft of a script has few enough locals, above the one of slot zero. -/
structure Draft.Grounded (d : Draft) : Prop where
  few : d.locals.length ≤ maxLocals
  root : Rooted d.locals

/-- The text or function that a constant refers to has so many captured variables. -/
def State.Counts (s : State) (k : UInt16) (n : Nat) : Prop :=
  ∃ r f, s.draft.chunk.constants.toList[k.toNat]? = some (.ofHandle r) ∧
    s.heap.object? r = some (.function f) ∧ f.upvalueCount = n

end Compile

namespace Pairing

open Compile

variable {p q : Pairing} {d d' e e' : Draft} {ds es : List Draft} {s t : State}

/-- Drafts that may differ in code and constants only, and in handles. -/
structure Twin (p : Pairing) (d e : Draft) : Prop where
  kind : d.kind = e.kind
  name : Option.Rel p.Pairs d.name e.name
  arity : d.arity = e.arity
  pooled : d.Pooled
  pooled' : e.Pooled
  locals : List.Forall₂ Local.Same d.locals e.locals
  captures : d.captures = e.captures
  scopeDepth : d.scopeDepth = e.scopeDepth

/-- The drafts of two compilations, the innermost first: those of scripts are the last, and those of
the functions inside have the same code and corresponding constants. -/
inductive Stacked (p : Pairing) : List Draft → List Draft → Prop
  | script {d e : Draft} (twin : p.Twin d e) (kind : d.kind = .script) (grounded : d.Grounded) :
      Stacked p [d] [e]
  | inner {d d' e e' : Draft} {ds es : List Draft} (twin : p.Twin d e) (kind : d.kind ≠ .script)
      (chunk : p.Chunks d.chunk e.chunk)
      (above : ds = [] → ∀ c ∈ d.captures, c.isLocal = true → 0 < c.index.toNat)
      (rest : Stacked p (d' :: ds) (e' :: es)) : Stacked p (d :: d' :: ds) (e :: e' :: es)

namespace Stacked

/-- The innermost functions are twins. -/
theorem twin (h : p.Stacked (d :: ds) (e :: es)) : p.Twin d e := by
  cases h with
  | script twin => exact twin
  | inner twin => exact twin

/-- Both sides have as many functions in the making. -/
theorem length_eq (h : p.Stacked ds es) : ds.length = es.length := by
  induction h with
  | script => rfl
  | inner _ _ _ _ _ ih => simpa using ih

/-- A function is being compiled on both sides or on neither. -/
theorem nil_iff (h : p.Stacked (d :: ds) (e :: es)) : ds = [] ↔ es = [] := by
  have hlength := h.length_eq
  simp only [List.length_cons, Nat.add_right_cancel_iff] at hlength
  rw [← List.length_eq_zero_iff, hlength, List.length_eq_zero_iff]

/-- The outermost function is the script. -/
theorem kind_iff (h : p.Stacked (d :: ds) (e :: es)) : d.kind = .script ↔ ds = [] := by
  cases h with
  | script _ kind => exact iff_of_true kind rfl
  | inner _ kind => exact iff_of_false kind (List.cons_ne_nil _ _)

/-- A function within another has paired code on both sides. -/
theorem chunk (h : p.Stacked (d :: ds) (e :: es)) (hinner : ds ≠ []) : p.Chunks d.chunk e.chunk := by
  cases h with
  | script => exact absurd rfl hinner
  | inner _ _ chunk => exact chunk

/-- The script is grounded, with no function around it. -/
theorem grounded (h : p.Stacked (d :: ds) (e :: es)) (hscript : ds = []) : d.Grounded := by
  cases h with
  | script _ _ grounded => exact grounded
  | inner => cases hscript

/-- The functions around the innermost one are twins. -/
theorem around (h : p.Stacked (d :: ds) (e :: es)) (hinner : ds ≠ []) : p.Stacked ds es := by
  cases h with
  | script => exact absurd rfl hinner
  | inner _ _ _ _ rest => exact rest

/-- What a function of a script captures there is not in slot zero. -/
theorem above (h : p.Stacked (d :: ds) (e :: es)) (hone : ds.length = 1) :
    ∀ c ∈ d.captures, c.isLocal = true → 0 < c.index.toNat := by
  cases h with
  | script => cases hone
  | inner _ _ _ above _ => exact above (List.length_eq_zero_iff.mp (Nat.succ.inj hone))

/-- The innermost drafts may change alike. -/
theorem head (h : p.Stacked (d :: ds) (e :: es)) (twin : p.Twin d' e') (kind : d'.kind = d.kind)
    (captures : d'.captures = d.captures) (grounded : ds = [] → d'.Grounded)
    (chunk : ds ≠ [] → p.Chunks d'.chunk e'.chunk) : p.Stacked (d' :: ds) (e' :: es) := by
  cases h with
  | script _ script => exact .script twin (kind.trans script) (grounded rfl)
  | inner _ inner _ above rest =>
    exact .inner twin (kind ▸ inner) (chunk (List.cons_ne_nil _ _))
      (fun hnil => captures ▸ above hnil) rest

end Stacked

/-- What drafts refer to decides whether they are twins. -/
theorem Twin.carry (h : p.Twin d e)
    (hpairs : ∀ x y, x ∈ d.handles → y ∈ e.handles → p.Pairs x y → q.Pairs x y) : q.Twin d e := by
  refine { h with name := ?_ }
  have hname := h.name
  cases hd : d.name with
  | none =>
    rw [hd] at hname
    exact option_carry hname fun x hx => by cases hx
  | some x =>
    rw [hd] at hname
    cases he : e.name with
    | none =>
      rw [he] at hname
      cases hname
    | some y =>
      rw [he] at hname
      cases hname with
      | some hxy =>
        exact .some (hpairs x y (Draft.mem_handles.mpr (.inl hd)) (Draft.mem_handles.mpr (.inl he)) hxy)

/-- Functions stay twins if the handles they hold stay paired. -/
theorem Stacked.carry (h : p.Stacked ds es) (hterms : q.terms = p.terms)
    (hpairs : ∀ x y, (∃ d ∈ ds, x ∈ d.handles) → (∃ e ∈ es, y ∈ e.handles) → p.Pairs x y →
      q.Pairs x y) : q.Stacked ds es := by
  induction h with
  | script twin kind grounded =>
    exact .script (twin.carry fun x y hx hy =>
      hpairs x y ⟨_, List.mem_cons_self, hx⟩ ⟨_, List.mem_cons_self, hy⟩) kind grounded
  | inner twin kind chunk above _ ih =>
    refine .inner (twin.carry fun x y hx hy =>
      hpairs x y ⟨_, List.mem_cons_self, hx⟩ ⟨_, List.mem_cons_self, hy⟩) kind
      { chunk with
        lines := fun hq => chunk.lines (hterms ▸ hq)
        constants := forall₂_values_carry chunk.constants fun v hv x y hat hxy => ?_ } above
      (ih fun x y hx hy => ?_)
    · -- the constant on the other side refers to the one handle that is paired
      obtain ⟨w, hw, hvw⟩ := exists_of_mem_left chunk.constants hv
      obtain ⟨y', hat', hxy'⟩ := hvw.exists_handle hat
      obtain rfl := p.unique.2 hxy hxy'
      exact hpairs x y
        ⟨_, List.mem_cons_self, Draft.mem_handles.mpr (.inr ⟨v, Array.mem_toList_iff.mp hv, hat⟩)⟩
        ⟨_, List.mem_cons_self, Draft.mem_handles.mpr (.inr ⟨w, Array.mem_toList_iff.mp hw, hat'⟩)⟩
        hxy
    · obtain ⟨d, hd, hx⟩ := hx
      obtain ⟨e, he, hy⟩ := hy
      exact hpairs x y ⟨d, List.mem_cons_of_mem _ hd, hx⟩ ⟨e, List.mem_cons_of_mem _ he, hy⟩

/-! ### Twin states -/

/-- Two states in which the same tree is translated: the heaps correspond, and the drafts as far as
they have to. No lines are compared, and what is alive on neither side may be paired. -/
structure Twins (p : Pairing) (before before' : Heap) (s t : State) : Prop where
  left : s.Live before
  right : t.Live before'
  heaps : p.Heaps s.heap t.heap
  lines : ¬ p.terms.sameLines
  fresh : ∀ x y, ¬ s.heap.Reachable s.roots x → ¬ t.heap.Reachable t.roots y → p.terms.functions x y
  classes : s.classes = t.classes
  drafts : p.Stacked s.drafts t.drafts

/-- Constants of the innermost drafts that correspond. Inside of functions they have the same
index. -/
structure Matches (p : Pairing) (s t : State) (k l : UInt16) : Prop where
  values : ∃ v w, s.draft.chunk.constants.toList[k.toNat]? = some v ∧
    t.draft.chunk.constants.toList[l.toNat]? = some w ∧ p.Values v w
  inner : s.enclosing ≠ [] → k = l

end Pairing

namespace Compile

open Pairing

variable {p q r : Pairing} {before before' : Heap} {s s' s'' t t' t'' : State}
  {v v' w w' : List UInt32}

/-! ### What a step adds -/

/-- From one state to another, words were added to the function in the making, and nothing that was
kept alive was given up. -/
structure State.Gains (before : Heap) (s s' : State) (words : List UInt32) : Prop where
  live : s'.Live before
  outer : s'.outer = s.outer
  name : s'.draft.name = s.draft.name
  code : s'.draft.chunk.code.toList = s.draft.chunk.code.toList ++ words
  constants : s.draft.chunk.constants.toList <+: s'.draft.chunk.constants.toList
  around : List.Forall₂ Recaptured s.enclosing s'.enclosing
  kept : ∀ x, s.heap.Reachable s.roots x → s'.heap.object? x = s.heap.object? x

/-- Capturing twice is capturing. -/
theorem Recaptured.trans {d d' d'' : Draft} (h : Recaptured d d') (h' : Recaptured d' d'') :
    Recaptured d d'' := by
  obtain ⟨locals, captures, rfl, hlocals, hcaptures⟩ := h
  obtain ⟨locals', captures', rfl, hlocals', hcaptures'⟩ := h'
  exact ⟨locals', captures', rfl, hlocals.trans hlocals', hcaptures.trans hcaptures'⟩

/-- Functions without a new capture are the same. -/
theorem recaptured_refl (ds : List Draft) : List.Forall₂ Recaptured ds ds :=
  List.forall₂_same.mpr fun d _ => .refl d

namespace State.Gains

/-- Nothing is gained by doing nothing. -/
theorem refl (hl : s.Live before) : s.Gains before s [] :=
  ⟨hl, rfl, rfl, (List.append_nil _).symm, List.prefix_rfl, recaptured_refl _, fun _ _ => rfl⟩

/-- What is gained is gained by the same function. -/
theorem enclosing_nil (h : s.Gains before s' v) : s'.enclosing = [] ↔ s.enclosing = [] := by
  rw [← List.length_eq_zero_iff, ← h.around.length_eq, List.length_eq_zero_iff]

/-- The code grows by the words gained. -/
theorem size (h : s.Gains before s' v) :
    s'.draft.chunk.code.size = s.draft.chunk.code.size + v.length := by
  rw [← Array.length_toList, h.code, List.length_append, Array.length_toList]

/-- Nothing that was kept alive is given up. -/
theorem roots (h : s.Gains before s' v) {x : Handle} (hx : x ∈ s.roots) : x ∈ s'.roots := by
  rw [mem_roots] at hx ⊢
  rcases hx with ⟨d, hd, hx⟩ | hx
  · left
    rcases List.mem_cons.mp hd with rfl | hd
    · refine ⟨s'.draft, List.mem_cons_self, ?_⟩
      rw [Draft.mem_handles] at hx ⊢
      rcases hx with hx | ⟨w, hw, hx⟩
      · exact .inl (h.name.trans hx)
      · exact .inr ⟨w, Array.mem_toList_iff.mp (h.constants.subset (Array.mem_toList_iff.mpr hw)), hx⟩
    · obtain ⟨d', hd', locals, captures, rfl, -⟩ := exists_of_mem_left h.around hd
      exact ⟨_, List.mem_cons_of_mem _ hd', hx⟩
  · exact .inr (h.outer.symm ▸ hx)

/-- What was reachable stays so. -/
theorem reachable (h : s.Gains before s' v) {x : Handle} (hx : s.heap.Reachable s.roots x) :
    s'.heap.Reachable s'.roots x :=
  ((Heap.reachable_congr h.kept).mpr hx).mono fun _ => h.roots

/-- What is gained twice is gained. -/
theorem trans (h : s.Gains before s' v) (h' : s'.Gains before s'' w) :
    s.Gains before s'' (v ++ w) where
  live := h'.live
  outer := h'.outer.trans h.outer
  name := h'.name.trans h.name
  code := by rw [h'.code, h.code, List.append_assoc]
  constants := h.constants.trans h'.constants
  around := forall₂_comp h.around h'.around fun _ _ _ => Recaptured.trans
  kept x hx := (h'.kept x (h.reachable hx)).trans (h.kept x hx)

/-- Constants are never taken away. -/
theorem counts (h : s.Gains before s' v) {k : UInt16} {n : Nat} (hk : s.Counts k n) :
    s'.Counts k n := by
  obtain ⟨x, f, hconstant, hobject, hcount⟩ := hk
  refine ⟨x, f, prefix_getElem? h.constants hconstant, ?_, hcount⟩
  rw [h.kept x (.root (State.constant_mem_roots hconstant))]
  exact hobject

end State.Gains

/-! ### Steps of twins -/

/-- Twins took a step each, after which they are twins again: what was paired and alive still is, and
what was added is aligned. A flat step neither enters nor leaves a scope, and drops no local. -/
structure Tandem (flat : Bool) (before before' : Heap) (p : Pairing) (s t : State) (q : Pairing)
    (s' t' : State) (v w : List UInt32) : Prop where
  left : s.Gains before s' v
  right : t.Gains before' t' w
  terms : q.terms = p.terms
  pairs : ∀ x y, p.Pairs x y → s.heap.Reachable s.roots x → t.heap.Reachable t.roots y → q.Pairs x y
  twins : q.Twins before before' s' t'
  words : s.enclosing = [] → Aligned (q.Matches s' t') s'.Counts v w
  level : flat = true → s'.draft.scopeDepth = s.draft.scopeDepth ∧
    s.draft.locals.length ≤ s'.draft.locals.length

end Compile

namespace Pairing.Matches

open Compile

variable {p q : Pairing} {before before' : Heap} {s s' t t' : State} {v w : List UInt32}
  {flat : Bool} {k l : UInt16}

/-- Matches constants stay linked. -/
theorem later (h : p.Matches s t k l) (ht : Tandem flat before before' p s t q s' t' v w) :
    q.Matches s' t' k l := by
  obtain ⟨⟨a, b, ha, hb, hab⟩, hinner⟩ := h
  refine ⟨⟨a, b, prefix_getElem? ht.left.constants ha, prefix_getElem? ht.right.constants hb, ?_⟩,
    fun hne => hinner (mt ht.left.enclosing_nil.mpr hne)⟩
  cases hab with
  | plain at_ => exact .plain at_
  | reference pair =>
    exact .reference (ht.pairs _ _ pair (.root (State.constant_mem_roots ha))
      (.root (State.constant_mem_roots hb)))

end Pairing.Matches

namespace Compile.Tandem

open Pairing

variable {p q r : Pairing} {before before' : Heap} {s s' s'' t t' t'' : State}
  {v v' w w' : List UInt32} {flat : Bool}

/-- Both sides may do nothing. -/
theorem refl (h : p.Twins before before' s t) : Tandem flat before before' p s t p s t [] [] :=
  ⟨.refl h.left, .refl h.right, rfl, fun _ _ hxy _ _ => hxy, h, fun _ => .nil,
    fun _ => ⟨rfl, Nat.le_refl _⟩⟩

/-- One step of twins after another. -/
theorem trans (h : Tandem flat before before' p s t q s' t' v w)
    (h' : Tandem flat before before' q s' t' r s'' t'' v' w') :
    Tandem flat before before' p s t r s'' t'' (v ++ v') (w ++ w') where
  left := h.left.trans h'.left
  right := h.right.trans h'.right
  terms := h'.terms.trans h.terms
  pairs x y hxy hx hy := h'.pairs x y (h.pairs x y hxy hx hy) (h.left.reachable hx)
    (h.right.reachable hy)
  twins := h'.twins
  words hscript := .append ((h.words hscript).imp (fun _ _ hkl => hkl.later h') fun _ _ => h'.left.counts)
    (h'.words (h.left.enclosing_nil.mpr hscript))
  level hflat := by
    obtain ⟨hdepth, hlength⟩ := h.level hflat
    obtain ⟨hdepth', hlength'⟩ := h'.level hflat
    exact ⟨hdepth'.trans hdepth, Nat.le_trans hlength hlength'⟩

/-- A flat step is a step. -/
theorem loose (h : Tandem true before before' p s t q s' t' v w) :
    Tandem flat before before' p s t q s' t' v w :=
  { h with level := fun _ => h.level rfl }

/-- As many words are added on both sides. -/
theorem length (h : Tandem flat before before' p s t q s' t' v w)
    (hs : p.Twins before before' s t) : v.length = w.length := by
  by_cases hscript : s.enclosing = []
  · exact (h.words hscript).length
  · have hbefore := congrArg Array.size (hs.drafts.chunk hscript).code
    have hafter := congrArg Array.size (h.twins.drafts.chunk (mt h.left.enclosing_nil.mp hscript)).code
    have := h.left.size
    have := h.right.size
    omega

end Compile.Tandem

end ScriptMachine
