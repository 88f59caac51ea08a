import ScriptMachine.Proofs.Parallel.Twins
import ScriptMachine.Proofs.Scoping.Expressions

/-!
# Steps of twins

What one primitive step of the compiler does in twin states: the heaps go on corresponding, the
drafts stay stacked, and the words that are added are aligned. Names are found in the same place on
both sides, constants are linked, and jumps have the same distances, because as much code is added on
both sides.
-/

namespace ScriptMachine

open Compile

namespace Instr

variable {L : UInt16 → UInt16 → Prop} {i j : Instr}

/-- Instructions that name the same constants are the same. -/
theorem Alike.eq (h : Alike L i j) (hL : ∀ k l, L k l → k = l) : i = j := by
  cases h with
  | plain _ => rfl
  | _ link => rw [hL _ _ link]

end Instr

namespace Pairing

variable {p q : Pairing} {before before' : Heap} {s s' t t' : State} {i j : Instr}

/-- Instructions that twins may emit. -/
structure Emits (p : Pairing) (s t : State) (i j : Instr) : Prop where
  script : s.enclosing = [] → Instr.Alike (p.Matches s t) i j ∧ i.Outermost
  inner : s.enclosing ≠ [] → i = j

/-- Instructions that are alike are emitted alike. -/
theorem Emits.of_alike (h : Instr.Alike (p.Matches s t) i j) (hi : i.Outermost) :
    p.Emits s t i j where
  script _ := ⟨h, hi⟩
  inner hne := h.eq fun _ _ hkl => hkl.inner hne

/-- An instruction without a constant, which is none that only functions have. -/
theorem Emits.plain (hi : i.constant? = none) (ho : i.Outermost) : p.Emits s t i i :=
  .of_alike (.plain hi) ho

/-- Constants are matched by the innermost drafts alone. -/
theorem Matches.congr {k l : UInt16} (h : p.Matches s t k l)
    (hs : s'.draft.chunk.constants = s.draft.chunk.constants)
    (ht : t'.draft.chunk.constants = t.draft.chunk.constants)
    (henclosing : s'.enclosing = s.enclosing) : p.Matches s' t' k l :=
  ⟨by rw [hs, ht]; exact h.values, henclosing ▸ h.inner⟩

/-- Code and lines have no part in it. -/
theorem Matches.recode {k l : UInt16} {code code' : Array UInt32} {lines lines' : Array UInt32}
    (h : p.Matches s t k l) : p.Matches (s.recode code lines) (t.recode code' lines') k l :=
  h.congr rfl rfl rfl

/-- Where a variable is kept in twins. -/
inductive Accesses (p : Pairing) (s t : State) : Access → Access → Prop
  | local_ {slot : UInt8} (above : s.enclosing = [] → 0 < slot.toNat) :
      Accesses p s t (.local_ slot) (.local_ slot)
  | upvalue {index : UInt8} : Accesses p s t (.upvalue index) (.upvalue index)
  | global {k l : UInt16} (link : p.Matches s t k l) : Accesses p s t (.global k) (.global l)

/-- The same variable is read. -/
theorem Accesses.get {a b : Access} (h : p.Accesses s t a b) : p.Emits s t a.get b.get := by
  cases h with
  | @local_ slot above =>
    refine ⟨fun hscript => ⟨.plain rfl, fun h => ?_, fun k h => ?_, fun k hk => ?_⟩, fun _ => rfl⟩
    · cases h
    · cases h
    · rw [← Instr.getLocal.inj hk, UInt8.toNat_toUInt16]
      exact above hscript
  | upvalue => exact .plain rfl (.of_free rfl)
  | global link => exact .of_alike (.getGlobal link) (.of_free rfl)

/-- The same variable is assigned. -/
theorem Accesses.set {a b : Access} (h : p.Accesses s t a b) : p.Emits s t a.set b.set := by
  cases h with
  | local_ => exact .plain rfl (.of_free rfl)
  | upvalue => exact .plain rfl (.of_free rfl)
  | global link => exact .of_alike (.setGlobal link) (.of_free rfl)

/-- Variables stay where they are kept. -/
theorem Accesses.later {a b : Access} {flat : Bool} {v w : List UInt32} (h : p.Accesses s t a b)
    (ht : Tandem flat before before' p s t q s' t' v w) : q.Accesses s' t' a b := by
  cases h with
  | local_ above => exact .local_ fun hscript => above (ht.left.enclosing_nil.mp hscript)
  | upvalue => exact .upvalue
  | global link => exact .global (link.later ht)

end Pairing

namespace Compile

open Pairing

variable {p q : Pairing} {before before' : Heap} {s s' s'' t t' t'' : State}
  {v v' w w' : List UInt32} {flat : Bool} {i j : Instr}

/-! ### Steps that leave the heap -/

namespace State.Gains

/-- The words that were added may be changed. -/
theorem recode (h : s.Gains before s' v) {code : Array UInt32} (lines : Array UInt32)
    (hcode : code.toList = s.draft.chunk.code.toList ++ w) :
    s.Gains before (s'.recode code lines) w where
  live := h.live.recode code lines
  outer := h.outer
  name := h.name
  code := hcode
  constants := h.constants
  around := h.around
  kept := h.kept

/-- Changing the place adds nothing. -/
theorem resite (h : s.Gains before s' v) (pos : Nat) (g : Site) :
    s.Gains before (s'.resite pos g) v where
  live := h.live.change (.refl _) rfl fun d hd => by
    rcases List.mem_cons.mp hd with rfl | hd
    · exact ⟨s'.draft, List.mem_cons_self, rfl, fun _ => id⟩
    · exact ⟨d, List.mem_cons_of_mem _ hd, rfl, fun _ => id⟩
  outer := h.outer
  name := h.name
  code := h.code
  constants := h.constants
  around := h.around
  kept := h.kept

/-- A patched jump goes over the words behind it. -/
theorem patch {jump : UInt16 → Instr} {at_ : Nat} (hj : Forward jump)
    (h : s.Gains before s' (v ++ (jump 0xFFFF).encode :: w))
    (hat : at_ = s.draft.chunk.code.size + v.length) (hp : s'.Patched at_ () s'') :
    ∃ d : UInt16, d.toNat = w.length ∧ s.Gains before s'' (v ++ (jump d).encode :: w) := by
  obtain ⟨hnear, rfl⟩ := hp
  have hsize : s'.draft.chunk.code.size - at_ - 1 = w.length := by
    rw [← Array.length_toList, h.code, hat]
    simp
    omega
  rw [hsize] at hnear ⊢
  refine ⟨_, toNat_distance hnear, h.recode _ ?_⟩
  have hlength : at_ = (s.draft.chunk.code.toList ++ v).length := by simp [hat]
  rw [Array.toList_modify, h.code, ← List.append_assoc, hlength, modify_middle, hj.patch]
  simp

end State.Gains

/-- Twins that took steps which leave the heap. -/
theorem Tandem.of_still (hs : p.Twins before before' s t) (left : s.Gains before s' v)
    (right : t.Gains before' t' w) (hheap : s'.heap = s.heap) (hheap' : t'.heap = t.heap)
    (hclasses : s'.classes = t'.classes) (hdrafts : p.Stacked s'.drafts t'.drafts)
    (words : s.enclosing = [] → Aligned (p.Matches s' t') s'.Counts v w)
    (level : flat = true → s'.draft.scopeDepth = s.draft.scopeDepth ∧
      s.draft.locals.length ≤ s'.draft.locals.length) :
    Tandem flat before before' p s t p s' t' v w where
  left := left
  right := right
  terms := rfl
  pairs _ _ hxy _ _ := hxy
  twins :=
    { left := left.live
      right := right.live
      heaps := by rw [hheap, hheap']; exact hs.heaps
      lines := hs.lines
      fresh := fun x y hx hy => hs.fresh x y (mt left.reachable hx) (mt right.reachable hy)
      classes := hclasses
      drafts := hdrafts }
  words := words
  level := level

/-- The innermost drafts got code on both sides, the same if they are those of functions. -/
theorem Tandem.recode (h : Tandem flat before before' p s t q s' t' v w) {code code' : Array UInt32}
    (lines lines' : Array UInt32) (hcode : code.toList = s.draft.chunk.code.toList ++ v')
    (hcode' : code'.toList = t.draft.chunk.code.toList ++ w')
    (hsame : s.enclosing ≠ [] → code = code')
    (words : s.enclosing = [] → Aligned (q.Matches s' t') s'.Counts v' w') :
    Tandem flat before before' p s t q (s'.recode code lines) (t'.recode code' lines') v' w' where
  left := h.left.recode lines hcode
  right := h.right.recode lines' hcode'
  terms := h.terms
  pairs := h.pairs
  twins :=
    { left := h.twins.left.recode _ _
      right := h.twins.right.recode _ _
      heaps := h.twins.heaps
      lines := h.twins.lines
      fresh := h.twins.fresh
      classes := h.twins.classes
      drafts :=
        have ht := h.twins.drafts.twin
        h.twins.drafts.head
          { ht with
            pooled := ht.pooled.congr rfl rfl
            pooled' := ht.pooled'.congr rfl rfl } rfl rfl
          (fun hscript =>
            have hg := h.twins.drafts.grounded hscript
            ⟨hg.few, hg.root⟩)
          fun hinner =>
            ⟨hsame (mt h.left.enclosing_nil.mpr hinner), fun hl => absurd hl h.twins.lines,
              (h.twins.drafts.chunk hinner).constants⟩ }
  words hscript := (words hscript).imp
    (fun _ _ hkl => hkl.congr rfl rfl rfl) fun _ _ => id
  level := h.level

/-- Code that was added to twins may be changed alike, if it stays aligned. -/
theorem Tandem.patch {jump : UInt16 → Instr} {at_ at' : Nat} (hs : p.Twins before before' s t)
    (hj : Forward jump) (h : Tandem flat before before' p s t q s' t'
      (v ++ (jump 0xFFFF).encode :: v') (w ++ (jump 0xFFFF).encode :: w'))
    (hat : at_ = s.draft.chunk.code.size + v.length)
    (hat' : at' = t.draft.chunk.code.size + w.length) (hlength : v.length = w.length)
    (hp : s'.Patched at_ () s'') (hp' : t'.Patched at' () t'')
    (words : s.enclosing = [] → Aligned (q.Matches s' t') s'.Counts v w ∧
      Aligned (q.Matches s' t') s'.Counts v' w') :
    ∃ d : UInt16, d.toNat = v'.length ∧ Tandem flat before before' p s t q s'' t''
      (v ++ (jump d).encode :: v') (w ++ (jump d).encode :: w') := by
  obtain ⟨d, hd, hleft⟩ := h.left.patch hj hat hp
  obtain ⟨d', hd', hright⟩ := h.right.patch hj hat' hp'
  have hboth := h.length hs
  simp only [List.length_append, List.length_cons] at hboth
  obtain rfl : d = d' := UInt16.toNat_inj.mp (by omega)
  obtain ⟨-, rfl⟩ := hp
  obtain ⟨-, rfl⟩ := hp'
  refine ⟨d, hd, h.recode _ _ hleft.code hright.code (fun hinner => ?_) fun hscript => ?_⟩
  · have hbefore := (hs.drafts.chunk hinner).code
    have hafter := (h.twins.drafts.chunk (mt h.left.enclosing_nil.mp hinner)).code
    rw [hafter, hat, hat', hlength, hbefore]
  · obtain ⟨hfirst, hsecond⟩ := words hscript
    refine hfirst.append (.instr (.plain ?_) ?_ hsecond)
    · cases hj <;> rfl
    · cases hj <;> exact .of_free rfl

/-- Places that twins may be at next: the same, but for the source positions of the locals. -/
structure Sites (flat : Bool) (s : State) (g g' : Site) : Prop where
  depth : g.depth = g'.depth
  arity : g.arity = g'.arity
  classes : g.classes = g'.classes
  locals : List.Forall₂ Local.Same g.locals g'.locals
  grounded : s.enclosing = [] → g.locals.length ≤ maxLocals ∧ Rooted g.locals
  level : flat = true → g.depth = s.draft.scopeDepth ∧ s.draft.locals.length ≤ g.locals.length

/-- Twins are at such places. -/
theorem sites_twins (flat : Bool) (hs : p.Twins before before' s t) :
    Sites flat s s.site t.site where
  depth := hs.drafts.twin.scopeDepth
  arity := hs.drafts.twin.arity
  classes := hs.classes
  locals := hs.drafts.twin.locals
  grounded hscript :=
    have hg := hs.drafts.grounded hscript
    ⟨hg.few, hg.root⟩
  level _ := ⟨rfl, Nat.le_refl _⟩

/-- The place of twins changed alike. -/
theorem Tandem.resite {pos pos' : Nat} {g g' : Site} (hs : p.Twins before before' s t)
    (h : Sites flat s g g') :
    Tandem flat before before' p s t p (s.resite pos g) (t.resite pos' g') [] [] := by
  have ht := hs.drafts.twin
  have hdrafts : p.Stacked (s.resite pos g).drafts (t.resite pos' g').drafts :=
    hs.drafts.head
      { ht with
        arity := h.arity
        locals := h.locals
        scopeDepth := h.depth
        pooled := ht.pooled.congr rfl rfl
        pooled' := ht.pooled'.congr rfl rfl } rfl rfl
      (fun hscript => ⟨(h.grounded hscript).1, (h.grounded hscript).2⟩) hs.drafts.chunk
  exact .of_still hs ((State.Gains.refl hs.left).resite pos g)
    ((State.Gains.refl hs.right).resite pos' g') rfl rfl h.classes hdrafts (fun _ => .nil) h.level

/-- Twins got an instruction each. -/
theorem Tandem.emitted {α β : Type} {a : α} {b : β} (hs : p.Twins before before' s t)
    (hij : p.Emits s t i j) (hx : s.Emitted i.encode a s') (hy : t.Emitted j.encode b t') :
    Tandem true before before' p s t p s' t' [i.encode] [j.encode] := by
  obtain ⟨lines, -, rfl⟩ := hx
  obtain ⟨lines', -, rfl⟩ := hy
  refine (Tandem.refl hs).recode lines lines' (by simp) (by simp) (fun hinner => ?_) fun hscript => ?_
  · rw [hij.inner hinner, (hs.drafts.chunk hinner).code]
  · exact .one (hij.script hscript).1 (hij.script hscript).2

/-- Twins emit an instruction each. -/
theorem Tandem.emit (hs : p.Twins before before' s t) (hij : p.Emits s t i j)
    (hx : emit i s = .ok () s') (hy : emit j t = .ok () t') :
    Tandem true before before' p s t p s' t' [i.encode] [j.encode] :=
  .emitted hs hij ((does_emit hs.left).run hx).2 ((does_emit hs.right).run hy).2

/-! ### Constants and texts -/

/-- A constant was found in the pool, or added to it because it was not there. -/
theorem makeConstant_cases {a : Value} {k : UInt16} (hl : s.Live before)
    (ha : ∀ r, a.toHandle? = some r → s.heap.Covers [r]) (h : makeConstant a s = .ok k s') :
    s'.Live before ∧ ((s.draft.pool[a.bits]? = some k ∧ s' = s) ∨
      (s.draft.pool[a.bits]? = none ∧ s.draft.chunk.constants.size < Chunk.maxConstants ∧
        k = s.draft.chunk.constants.size.toUInt16 ∧ s' = s.pooled a k)) := by
  obtain ⟨hlive, hpooled⟩ := (does_makeConstant hl ha).run h
  refine ⟨hlive, ?_⟩
  obtain ⟨found, _, hlook, hrest⟩ := run_bind.mp h
  obtain ⟨hfind, rfl⟩ := run_look.mp hlook
  cases found with
  | some i =>
    obtain ⟨rfl, rfl⟩ := run_pure.mp hrest
    exact .inl ⟨hfind, rfl⟩
  | none =>
    rcases hpooled with ⟨-, hfound⟩ | hnew
    · cases hfind.symm.trans hfound
    · exact .inr ⟨hfind, hnew⟩

/-- A constant was found or added. -/
theorem State.Gains.makeConstant {a : Value} {k : UInt16} (hl : s.Live before)
    (hd : s.draft.Pooled) (ha : ∀ r, a.toHandle? = some r → s.heap.Covers [r])
    (h : makeConstant a s = .ok k s') : s.Gains before s' [] ∧ s'.draft.Pooled ∧
      s'.draft.chunk.constants.toList[k.toNat]? = some a := by
  obtain ⟨hlive, ⟨hfound, rfl⟩ | ⟨hnew, hroom, rfl, rfl⟩⟩ := makeConstant_cases hl ha h
  · exact ⟨.refl hlive, hd, by rw [Array.getElem?_toList]; exact (hd.index a k).mp hfound⟩
  · have hindex : s.draft.chunk.constants.size.toUInt16.toNat = s.draft.chunk.constants.size :=
      UInt16.toNat_ofNat_of_lt' hroom
    refine ⟨⟨hlive, rfl, rfl, (List.append_nil _).symm, ?_, recaptured_refl _, fun _ _ => rfl⟩,
      hd.add hnew hroom, ?_⟩
    · simp [State.pooled, Chunk.pushConstant]
    · simp [State.pooled, Chunk.pushConstant, hindex]

/-- What a step of makeConstant leaves. -/
theorem makeConstant_keeps {a : Value} {k : UInt16} (hl : s.Live before)
    (ha : ∀ r, a.toHandle? = some r → s.heap.Covers [r]) (h : makeConstant a s = .ok k s') :
    ∃ constants pool, s' = { s with draft := { s.draft with
      chunk := { s.draft.chunk with constants := constants }, pool := pool } } := by
  obtain ⟨-, ⟨-, rfl⟩ | ⟨-, -, -, rfl⟩⟩ := makeConstant_cases hl ha h
  · exact ⟨_, _, rfl⟩
  · exact ⟨_, _, rfl⟩

/-- Inside of functions the constants of twins are the same, so values that correspond are found
among them both or neither. -/
theorem makeConstant_inner {a b : Value} {k l : UInt16} (hs : p.Twins before before' s t)
    (hab : p.Values a b) (ha : ∀ r, a.toHandle? = some r → s.heap.Covers [r])
    (hb : ∀ r, b.toHandle? = some r → t.heap.Covers [r]) (hx : makeConstant a s = .ok k s')
    (hy : makeConstant b t = .ok l t') (hinner : s.enclosing ≠ []) : k = l ∧
      List.Forall₂ p.Values s'.draft.chunk.constants.toList t'.draft.chunk.constants.toList := by
  have hchunk := hs.drafts.chunk hinner
  have hpool := hchunk.pool_eq hs.drafts.twin.pooled hs.drafts.twin.pooled' hab
  obtain ⟨-, ⟨hfound, rfl⟩ | ⟨hnew, -, rfl, rfl⟩⟩ := makeConstant_cases hs.left ha hx
  · obtain ⟨-, ⟨hfound', rfl⟩ | ⟨hnew', -⟩⟩ := makeConstant_cases hs.right hb hy
    · rw [hfound, hfound'] at hpool
      exact ⟨Option.some.inj hpool, hchunk.constants⟩
    · rw [hfound, hnew'] at hpool
      cases hpool
  · obtain ⟨-, ⟨hfound', -⟩ | ⟨hnew', -, rfl, rfl⟩⟩ := makeConstant_cases hs.right hb hy
    · rw [hfound', hnew] at hpool
      cases hpool
    · have hsize : s.draft.chunk.constants.size = t.draft.chunk.constants.size :=
        hchunk.constants.length_eq
      refine ⟨congrArg Nat.toUInt16 hsize, ?_⟩
      simp only [State.pooled, Chunk.pushConstant, Array.toList_push]
      exact List.rel_append hchunk.constants (.cons hab .nil)

/-- Corresponding values become constants of twins, which match. -/
theorem Tandem.makeConstant {a b : Value} {k l : UInt16} (hs : p.Twins before before' s t)
    (hab : p.Values a b) (ha : ∀ r, a.toHandle? = some r → s.heap.Covers [r])
    (hb : ∀ r, b.toHandle? = some r → t.heap.Covers [r]) (hx : makeConstant a s = .ok k s')
    (hy : makeConstant b t = .ok l t') :
    Tandem true before before' p s t p s' t' [] [] ∧ p.Matches s' t' k l := by
  have ht := hs.drafts.twin
  obtain ⟨hleft, hpooled, hk⟩ := State.Gains.makeConstant hs.left ht.pooled ha hx
  obtain ⟨hright, hpooled', hl⟩ := State.Gains.makeConstant hs.right ht.pooled' hb hy
  have hinner := makeConstant_inner hs hab ha hb hx hy
  obtain ⟨constants, pool, rfl⟩ := makeConstant_keeps hs.left ha hx
  obtain ⟨constants', pool', rfl⟩ := makeConstant_keeps hs.right hb hy
  have htwin : p.Twin
      { s.draft with chunk := { s.draft.chunk with constants := constants }, pool := pool }
      { t.draft with chunk := { t.draft.chunk with constants := constants' }, pool := pool' } :=
    { ht with
      pooled := hpooled
      pooled' := hpooled' }
  have hdrafts := hs.drafts.head htwin rfl rfl
    (fun hscript =>
      have hg := hs.drafts.grounded hscript
      ⟨hg.few, hg.root⟩)
    fun hne =>
      have hchunk := hs.drafts.chunk hne
      ⟨hchunk.code, hchunk.lines, (hinner hne).2⟩
  exact ⟨.of_still hs hleft hright rfl rfl hs.classes hdrafts (fun _ => .nil)
    fun _ => ⟨rfl, Nat.le_refl _⟩, ⟨_, _, hk, hl, hab⟩, fun hne => (hinner hne).1⟩

/-- Twins intern a text each, and the texts are paired. -/
theorem Tandem.intern {chars : String} {x y : Handle} (hs : p.Twins before before' s t)
    (hx : intern chars s = .ok x s') (hy : intern chars t = .ok y t') :
    ∃ q, Tandem true before before' p s t q s' t' [] [] ∧ q.Pairs x y ∧
      s'.heap.Covers [x] ∧ t'.heap.Covers [y] ∧
      (∃ text, s'.heap.object? x = some (.string text)) ∧
        ∃ text, t'.heap.object? y = some (.string text) := by
  obtain ⟨hlive, hi⟩ := (does_intern hs.left).run hx
  obtain ⟨hlive', hi'⟩ := (does_intern hs.right).run hy
  have hcovers := hi.covers
  have hcovers' := hi'.covers
  obtain ⟨h, rfl, hi⟩ := hi
  obtain ⟨h', rfl, hi'⟩ := hi'
  obtain ⟨q, hq, hpair, hkept⟩ := hs.heaps.intern hi hi'
  have hleft : s.Gains before { s with heap := h } [] :=
    ⟨hlive, rfl, rfl, (List.append_nil _).symm, List.prefix_rfl, recaptured_refl _, hi.kept⟩
  have hright : t.Gains before' { t with heap := h' } [] :=
    ⟨hlive', rfl, rfl, (List.append_nil _).symm, List.prefix_rfl, recaptured_refl _, hi'.kept⟩
  refine ⟨q, ⟨hleft, hright, hkept.terms, hkept.pairs, ⟨hlive, hlive', hq, ?_, fun a b ha hb => ?_,
    hs.classes, hs.drafts.carry hkept.terms fun a b ha hb hab => ?_⟩, fun _ => .nil,
    fun _ => ⟨rfl, Nat.le_refl _⟩⟩, hpair, hcovers, hcovers', ⟨_, hi.new⟩, ⟨_, hi'.new⟩⟩
  · rw [hkept.terms]
    exact hs.lines
  · rw [hkept.terms]
    exact hs.fresh a b (mt hleft.reachable ha) (mt hright.reachable hb)
  · exact hkept.pairs a b hab (.root (State.mem_roots.mpr (.inl ha)))
      (.root (State.mem_roots.mpr (.inl hb)))

/-! ### Names -/

section Locals

variable {ls ms : List Local} {name : String} {d e : Draft} {ds es : List Draft}

/-- The same name is found among the same locals. -/
theorem find?_same (h : List.Forall₂ Local.Same ls ms) (name : String) :
    Local.find? name ls = Local.find? name ms := by
  induction h with
  | nil => rfl
  | cons hl hrest ih => rw [Local.find?, Local.find?, hl.name, hl.depth, hrest.length_eq, ih]

/-- The same local is captured. -/
theorem markCaptured_same (h : List.Forall₂ Local.Same ls ms) (name : String) :
    List.Forall₂ Local.Same (Local.markCaptured name ls) (Local.markCaptured name ms) := by
  induction h with
  | nil => exact .nil
  | @cons l m _ _ hl hrest ih =>
    rw [Local.markCaptured, Local.markCaptured, hl.name]
    split
    · exact .cons ⟨rfl, hl.depth, rfl⟩ hrest
    · exact .cons hl ih

/-- The same locals leave their scope. -/
theorem leave_same (h : List.Forall₂ Local.Same ls ms) (depth : Nat) :
    (Local.leave depth ls).1 = (Local.leave depth ms).1 ∧
      List.Forall₂ Local.Same (Local.leave depth ls).2 (Local.leave depth ms).2 := by
  induction h with
  | nil => exact ⟨rfl, .nil⟩
  | cons hl hrest ih =>
    rw [Local.leave, Local.leave, hl.depth, hl.captured]
    split
    · exact ⟨congrArg (List.cons _) ih.1, ih.2⟩
    · exact ⟨rfl, .cons hl hrest⟩

namespace Rooted

/-- Slot zero is always there. -/
theorem length_pos (h : Rooted ls) : 0 < ls.length := by
  cases h <;> simp

/-- A name that a source can spell is in no slot zero. -/
theorem find?_pos {slot : Nat} {ready : Bool} (h : Rooted ls) (hname : name ≠ "")
    (hfind : Local.find? name ls = some (slot, ready)) : 0 < slot ∧ slot < ls.length := by
  induction h with
  | root empty =>
    rw [Local.find?, if_neg (fun heq => hname (heq.symm.trans empty))] at hfind
    cases hfind
  | @above l ls rest ih =>
    rw [Local.find?] at hfind
    split at hfind
    · obtain rfl := congrArg Prod.fst (Option.some.inj hfind)
      exact ⟨rest.length_pos, Nat.lt_succ_self _⟩
    · exact ⟨(ih hfind).1, Nat.lt_succ_of_lt (ih hfind).2⟩

/-- A mark of a name that a source can spell leaves the lowest local. -/
theorem markCaptured (h : Rooted ls) (hname : name ≠ "") : Rooted (Local.markCaptured name ls) := by
  induction h with
  | root empty depth captured =>
    rw [Local.markCaptured, if_neg (fun heq => hname (heq.symm.trans empty))]
    exact .root empty depth captured
  | above rest ih =>
    rw [Local.markCaptured]
    split
    · exact .above rest
    · exact .above ih

/-- The end of a scope leaves the lowest local. -/
theorem leave (h : Rooted ls) (depth : Nat) : Rooted (Local.leave depth ls).2 := by
  induction h with
  | root name zero captured =>
    rw [Local.leave, zero, if_neg (by simp)]
    exact .root name zero captured
  | @above l ls rest ih =>
    rw [Local.leave]
    split
    · exact ih
    · exact .above rest

end Rooted

/-- Leaving a scope adds no local. -/
theorem length_leave_le (depth : Nat) (ls : List Local) :
    (Local.leave depth ls).2.length ≤ ls.length := by
  induction ls with
  | nil => exact Nat.le_refl 0
  | cons l ls ih =>
    rw [Local.leave]
    split
    · exact Nat.le_succ_of_le ih
    · exact Nat.le_refl _

/-- A name that a source can spell is in no slot zero. -/
theorem Draft.Grounded.find?_pos {slot : Nat} {ready : Bool} (hg : d.Grounded) (hname : name ≠ "")
    (h : Local.find? name d.locals = some (slot, ready)) : 0 < slot.toUInt8.toNat := by
  obtain ⟨hpos, hlt⟩ := hg.root.find?_pos hname h
  have hbyte : slot.toUInt8.toNat = slot :=
    UInt8.toNat_ofNat_of_lt (Nat.lt_of_lt_of_le hlt hg.few)
  rwa [hbyte]

/-- Twins find or add a capture alike. -/
theorem addCapture_twin (h : p.Twin d e) (c : Capture) :
    (d.addCapture c).1 = (e.addCapture c).1 ∧ ∃ captures,
      (d.addCapture c).2 = { d with captures := captures } ∧
      (e.addCapture c).2 = { e with captures := captures } ∧
      ∀ x ∈ captures, x ∈ d.captures ∨ x = c := by
  unfold Draft.addCapture
  rw [← h.captures]
  split
  · exact ⟨rfl, d.captures, rfl, by rw [h.captures], fun _ => .inl⟩
  · split
    · exact ⟨rfl, _, rfl, rfl, fun x hx => Array.mem_push.mp hx⟩
    · exact ⟨rfl, d.captures, rfl, by rw [h.captures], fun _ => .inl⟩

/-- The innermost functions of twins capture what the functions around provide. -/
theorem Stacked.addCapture {d₁ e₁ : Draft} {c : Capture} (h : p.Stacked (d :: d₁ :: ds) (e :: e₁ :: es))
    {d₂ e₂ : Draft} {ds' es' : List Draft} (hrest : p.Stacked (d₂ :: ds') (e₂ :: es'))
    (hlength : ds'.length = ds.length)
    (hc : ds = [] → c.isLocal = true → 0 < c.index.toNat) :
    (d.addCapture c).1 = (e.addCapture c).1 ∧
      p.Stacked ((d.addCapture c).2 :: d₂ :: ds') ((e.addCapture c).2 :: e₂ :: es') := by
  cases h with
  | inner twin kind chunk above rest =>
    obtain ⟨hindex, captures, hd, he, hmem⟩ := addCapture_twin twin c
    rw [hd, he]
    refine ⟨hindex, .inner { twin with
      captures := rfl
      pooled := twin.pooled.congr rfl rfl
      pooled' := twin.pooled'.congr rfl rfl } kind chunk (fun hnil x hx => ?_) hrest⟩
    have hnil : ds = [] := List.eq_nil_of_length_eq_zero (by rw [← hlength, hnil]; rfl)
    rcases hmem x hx with hx | rfl
    · exact above hnil x hx
    · exact hc hnil

/-- A name is searched for alike in the functions around. -/
theorem resolveCapture_stacked (h : p.Stacked (d :: ds) (e :: es)) (hname : name ≠ "") :
    (Draft.resolveCapture name d ds).1 = (Draft.resolveCapture name e es).1 ∧
      p.Stacked ((Draft.resolveCapture name d ds).2.1 :: (Draft.resolveCapture name d ds).2.2)
        ((Draft.resolveCapture name e es).2.1 :: (Draft.resolveCapture name e es).2.2) := by
  induction ds generalizing d e es with
  | nil =>
    obtain rfl := h.nil_iff.mp rfl
    exact ⟨rfl, h⟩
  | cons d₁ ds ih =>
    have hall := h
    cases h with
    | @inner _ _ _ e₁ _ es twin kind chunk above rest =>
      rw [Draft.resolveCapture, Draft.resolveCapture, ← find?_same rest.twin.locals]
      split
      · exact ⟨rfl, hall⟩
      · next slot hfind =>
        -- the function around has the variable in a slot, which is marked
        have htwin := rest.twin
        have hmarked : p.Stacked ({ d₁ with locals := Local.markCaptured name d₁.locals } :: ds)
            ({ e₁ with locals := Local.markCaptured name e₁.locals } :: es) :=
          rest.head { htwin with
            locals := markCaptured_same htwin.locals name
            pooled := htwin.pooled.congr rfl rfl
            pooled' := htwin.pooled'.congr rfl rfl } rfl rfl
            (fun hnil =>
              have hg := rest.grounded hnil
              have hle : LocalsLe d₁.locals (Local.markCaptured name d₁.locals) :=
                localsLe_markCaptured d₁.locals
              ⟨hle.length_eq ▸ hg.few, hg.root.markCaptured hname⟩) rest.chunk
        obtain ⟨hindex, hstacked⟩ := Stacked.addCapture (c := ⟨true, slot.toUInt8⟩) hall hmarked rfl
          fun hnil _ => (rest.grounded hnil).find?_pos hname hfind
        exact ⟨congrArg (Except.map some) hindex, hstacked⟩
      · obtain ⟨hresult, hstacked⟩ := ih rest
        have hlength := (resolveCapture_spec name ds d₁).around.length_eq
        generalize Draft.resolveCapture name d₁ ds = a at hresult hstacked hlength ⊢
        generalize Draft.resolveCapture name e₁ es = b at hresult hstacked ⊢
        obtain ⟨result, outer, rest'⟩ := a
        obtain ⟨result', outer', rest''⟩ := b
        obtain rfl : result = result' := hresult
        have hunchanged : p.Stacked (d :: outer :: rest') (e :: outer' :: rest'') :=
          .inner twin kind chunk (fun hnil => above ?_) hstacked
        · cases result with
          | error p => exact ⟨rfl, hunchanged⟩
          | ok found =>
            cases found with
            | none => exact ⟨rfl, hunchanged⟩
            | some i =>
              obtain ⟨hindex, hstacked⟩ := Stacked.addCapture (c := ⟨false, i⟩) hall hstacked
                hlength.symm fun _ hlocal => by cases hlocal
              exact ⟨congrArg (Except.map some) hindex, hstacked⟩
        · exact List.eq_nil_of_length_eq_zero (by rw [hlength, hnil]; rfl)

end Locals

/-- Twins search for a name among the functions around alike. -/
theorem Tandem.captureVariable {name : String} {a b : Option UInt8}
    (hs : p.Twins before before' s t) (hname : name ≠ "")
    (hx : captureVariable name s = .ok a s') (hy : captureVariable name t = .ok b t') :
    Tandem true before before' p s t p s' t' [] [] ∧ a = b := by
  obtain ⟨hresult, hstacked⟩ := resolveCapture_stacked hs.drafts hname
  have hleft := resolveCapture_spec name s.enclosing s.draft
  have hright := resolveCapture_spec name t.enclosing t.draft
  obtain ⟨hlive, -⟩ := (does_captureVariable hs.left).run hx
  obtain ⟨hlive', -⟩ := (does_captureVariable hs.right).run hy
  unfold Compile.captureVariable at hx hy
  generalize Draft.resolveCapture name s.draft s.enclosing = found at hx hresult hstacked hleft
  generalize Draft.resolveCapture name t.draft t.enclosing = found' at hy hresult hstacked hright
  obtain ⟨result, draft, enclosing⟩ := found
  obtain ⟨result', draft', enclosing'⟩ := found'
  obtain rfl : result = result' := hresult
  cases result with
  | error p => exact (run_failBefore.mp hx).elim
  | ok index =>
    obtain ⟨rfl, rfl⟩ := EStateM.Result.ok.inj hx
    obtain ⟨rfl, rfl⟩ := EStateM.Result.ok.inj hy
    obtain ⟨captures, hdraft, -⟩ := hleft.innermost
    obtain ⟨captures', hdraft', -⟩ := hright.innermost
    dsimp only at hdraft hdraft'
    subst hdraft hdraft'
    refine ⟨.of_still hs ?_ ?_ rfl rfl hs.classes hstacked (fun _ => .nil)
      fun _ => ⟨rfl, Nat.le_refl _⟩, rfl⟩
    · exact ⟨hlive, rfl, rfl, (List.append_nil _).symm, List.prefix_rfl, hleft.around, fun _ _ => rfl⟩
    · exact ⟨hlive', rfl, rfl, (List.append_nil _).symm, List.prefix_rfl, hright.around, fun _ _ => rfl⟩

end Compile

end ScriptMachine
