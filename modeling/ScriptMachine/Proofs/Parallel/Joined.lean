import ScriptMachine.Proofs.Code.Sections
import ScriptMachine.Proofs.Parallel.Creation
import ScriptMachine.Proofs.Parallel.Statements
import ScriptMachine.Proofs.Scoping.Programs
import ScriptMachine.Proofs.Syntax.Unique
import ScriptMachine.Proofs.Token.Joining

/-!
# Two sources in one

A source that is two others with a newline between has the tokens of the one and then those of the
other, so it is the statements of both. Between them the compiler stands as at the start of a script,
except that code and constants are there already. So the code of the script is that of the two
scripts, one behind the other and without the final return in between, up to where the constants
are.
-/

namespace ScriptMachine

open Compile

/-! ### Passages of aligned code -/

section Passages

variable {h : Heap} {f : Prototype} {o : Nat}

namespace Prototype

/-- The instruction after one that makes no closure starts at the next word. -/
theorem width_of_plain {i : Instr} (hi : f.instr? o = some i) (hplain : ∀ k, i ≠ .closure k) :
    f.width h o = 1 := by
  rw [width, hi]
  cases i with
  | closure k => exact absurd rfl (hplain k)
  | _ => rfl

/-- A closure is as wide as it has captures. -/
theorem width_of_closure {k : UInt16} (hi : f.instr? o = some (.closure k)) :
    f.width h o = 1 + f.captureCount h k := by
  rw [width, hi]
  rfl

/-- A closure of the function under a constant has the captures of that function. -/
theorem captureCount_of_function {k : UInt16} {x : Handle} {a : Prototype}
    (hx : (f.chunk.constants[k.toNat]?).bind Value.toHandle? = some x)
    (ha : h.object? x = some (.function a)) : f.captureCount h k = a.upvalueCount := by
  rw [captureCount, Chunk.captureCount, hx]
  simp only [Heap.prototype, Heap.object, ha]
  rfl

end Prototype

/-- What the code of a script may work on: it captures nothing itself. -/
structure Prototype.Outer (h : Heap) (f : Prototype) : Prop where
  wellFormed : f.WellFormed h
  none : f.upvalueCount = 0

/-- No instruction of a script works on an upvalue of its own. -/
theorem Prototype.Outer.upvalue? {i : Instr} (hf : f.Outer h) (hi : f.At h o i) :
    i.upvalue? = Option.none := by
  cases hu : i.upvalue? with
  | none => rfl
  | some k =>
    have hlt := hf.wellFormed.upvalues o i k hi hu
    rw [hf.none] at hlt
    exact absurd hlt (Nat.not_lt_zero _)

/-- What is captured from a script is one of its own slots. -/
theorem Prototype.Outer.isLocal {i : Instr} {c : Capture} (hf : f.Outer h) (hi : f.At h o i)
    (hc : f.Captures h o c) : c.isLocal = true := by
  cases hl : c.isLocal with
  | true => rfl
  | false =>
    have hlt := hf.wellFormed.captures o i c hi hc hl
    rw [hf.none] at hlt
    exact absurd hlt (Nat.not_lt_zero _)

namespace Aligned

variable {e : Passage} {C : UInt16 → Nat → Prop} {a b s t v w : List UInt32}

/-- The captures of a closure instruction stand behind it. -/
theorem getElem?_capture {captures : List Capture} {c : Nat} (hc : c < captures.length)
    (word : UInt32) : (a ++ (word :: captures.map Capture.encode ++ v) ++ s)[a.length + 1 + c]? =
      some captures[c].encode := by
  rw [List.append_assoc, List.getElem?_append_right (by omega),
    show a.length + 1 + c - a.length = c + 1 by omega, List.cons_append, List.cons_append,
    List.getElem?_cons_succ, List.append_assoc, List.getElem?_append_left (by simpa using hc)]
  simp [hc]

/-- Code goes on behind its first words. -/
theorem length_lt_size {word : UInt32} (hcode : f.chunk.code.toList = a ++ word :: v) :
    a.length < f.chunk.code.size := by
  rw [← Array.length_toList, hcode]
  simp

/-- Two scripts have one instruction in common. -/
theorem shares_instr {i j : Instr} (hf : f.Outer h) (hchunk : f.chunk = e.left.chunk)
    (hleft : e.left.chunk.code.toList = a ++ i.encode :: s)
    (hright : e.right.chunk.code.toList = b ++ j.encode :: t) (hpre : f.Starts h a.length)
    (alike : Instr.Alike e.links i j) (outermost : i.Outermost) :
    e.Shares h a.length b.length i j := by
  have hi : f.instr? a.length = some i := by
    rw [Prototype.instr?, hchunk, ← Array.getElem?_toList, hleft]
    simp [i.decode?_encode]
  refine ⟨hchunk ▸ hi, ?_, alike, outermost.stays, outermost.slot, hf.upvalue? ⟨hpre, hi⟩,
    fun k _ _ hk => absurd hk (outermost.closure k)⟩
  rw [← Array.getElem?_toList, hright]
  simp [j.decode?_encode]

/-- Two scripts make closures of linked functions with the same captures. -/
theorem shares_closure {k l : UInt16} {captures : List Capture} (hf : f.Outer h)
    (hchunk : f.chunk = e.left.chunk)
    (hleft : e.left.chunk.code.toList =
      a ++ ((Instr.closure k).encode :: captures.map Capture.encode ++ v) ++ s)
    (hright : e.right.chunk.code.toList =
      b ++ ((Instr.closure l).encode :: captures.map Capture.encode ++ w) ++ t)
    (hpre : f.Starts h a.length) (link : e.links k l) (hcount : f.captureCount h k = captures.length)
    (above : ∀ c ∈ captures, c.isLocal = true → 0 < c.index.toNat) :
    e.Shares h a.length b.length (.closure k) (.closure l) := by
  have hi : f.instr? a.length = some (.closure k) := by
    rw [Prototype.instr?, hchunk, ← Array.getElem?_toList, hleft]
    simp [Instr.decode?_encode]
  refine ⟨hchunk ▸ hi, ?_, .closure link, (fun h => by cases h), (fun k h => by cases h), rfl,
    fun k' x g hk hx hg c hc => ?_⟩
  · rw [← Array.getElem?_toList, hright]
    simp [Instr.decode?_encode]
  · cases hk
    have hc' : c < captures.length := by
      rw [← hcount, Prototype.captureCount_of_function (hchunk ▸ hx) hg]
      exact hc
    have hget : e.left.chunk.code[a.length + 1 + c]? = some captures[c].encode := by
      rw [← Array.getElem?_toList, hleft]
      exact getElem?_capture hc' _
    refine ⟨?_, fun word hword => ?_⟩
    · rw [hget, ← Array.getElem?_toList, hright]
      exact (getElem?_capture hc' _).symm
    · obtain rfl := Option.some.inj (hget.symm.trans hword)
      have hwidth : c + 1 < f.width h a.length := by
        rw [Prototype.width_of_closure hi, hcount]
        omega
      have hlocal := hf.isLocal ⟨hpre, hi⟩ ⟨c, _, hwidth, hchunk ▸ hget, rfl⟩
      rw [Capture.decode_encode] at hlocal ⊢
      exact ⟨hlocal, above _ (List.getElem_mem hc') hlocal⟩

/-- Where an instruction of the passage starts in the one script, the other one has the same. -/
theorem shares (ha : Aligned e.links C v w) (hf : f.Outer h) (hchunk : f.chunk = e.left.chunk)
    (hleft : e.left.chunk.code.toList = a ++ v ++ s)
    (hright : e.right.chunk.code.toList = b ++ w ++ t)
    (hcount : ∀ k n, C k n → f.captureCount h k = n) (hpre : f.Starts h a.length)
    {d : Nat} (hd : d < v.length) (hstart : f.Starts h (a.length + d)) :
    ∃ i j, e.Shares h (a.length + d) (b.length + d) i j := by
  -- by induction on the passage, whose first instruction moves over to what stands before it
  induction ha generalizing a b d with
  | nil => exact absurd hd (Nat.not_lt_zero d)
  | @instr i j v w alike outermost rest ih =>
    have hshares : e.Shares h a.length b.length i j :=
      shares_instr (s := v ++ s) (t := w ++ t) hf hchunk (by simpa using hleft)
        (by simpa using hright) hpre alike outermost
    have hi : f.instr? a.length = some i := by
      rw [Prototype.instr?, hchunk]
      exact hshares.left
    rcases d with _ | d
    · exact ⟨i, j, hshares⟩
    · have hnext : f.Starts h (a.length + 1) :=
        Prototype.width_of_plain (h := h) hi outermost.closure ▸
          hpre.next (length_lt_size (v := v ++ s) (by simpa [hchunk] using hleft))
      obtain ⟨i', j', hs⟩ := ih (a := a ++ [i.encode]) (b := b ++ [j.encode]) (d := d)
        (by simpa using hleft) (by simpa using hright) (by simpa using hnext) (by simpa using hd)
        (by simpa [Nat.add_assoc, Nat.add_comm 1] using hstart)
      exact ⟨i', j', by simpa [Nat.add_assoc, Nat.add_comm 1] using hs⟩
  | @closure k l captures v w link count above rest ih =>
    have hshares := shares_closure hf hchunk hleft hright hpre link (hcount k _ count) above
    have hi : f.instr? a.length = some (.closure k) := by
      rw [Prototype.instr?, hchunk]
      exact hshares.left
    have hwidth : f.width h a.length = 1 + captures.length := by
      rw [Prototype.width_of_closure hi, hcount k _ count]
    rcases Nat.eq_zero_or_pos d with rfl | hpos
    · exact ⟨_, _, hshares⟩
    · have hnext : f.Starts h (a.length + (1 + captures.length)) :=
        hwidth ▸ hpre.next (length_lt_size
          (v := captures.map Capture.encode ++ (v ++ s)) (by simpa [hchunk] using hleft))
      -- no instruction starts among the captures
      have hbehind := hpre.behind hstart (by omega)
      rw [hwidth] at hbehind
      obtain ⟨d, rfl⟩ := Nat.exists_eq_add_of_le (Nat.le_of_add_le_add_left hbehind)
      obtain ⟨i', j', hs⟩ := ih
        (a := a ++ ((Instr.closure k).encode :: captures.map Capture.encode))
        (b := b ++ ((Instr.closure l).encode :: captures.map Capture.encode)) (d := d)
        (by simpa using hleft) (by simpa using hright)
        (by simpa [Nat.add_assoc, Nat.add_comm 1] using hnext) (by simp at hd; omega)
        (by simpa [Nat.add_assoc, Nat.add_comm 1] using hstart)
      exact ⟨i', j', by simpa [Nat.add_assoc, Nat.add_comm 1] using hs⟩

end Aligned

end Passages

/-! ### Sources -/

/-- A newline separates the tokens of two sources. -/
theorem sourceTokens_join {a b : String} (ha : (Token.read a).Terminated) :
    sourceTokens (a ++ "\n" ++ b) = sourceTokens a ++ sourceTokens b := by
  rw [sourceTokens, Token.read_join a b ha]
  simp [sourceTokens, Token.Reading.append, Token.Reading.shift, Function.comp_def,
    Lexeme.shift]

/-- A source that compiles has every string and comment closed. -/
theorem Compile.terminated_of_compile {source : String} {heap h : Heap} {outer : List Handle}
    {r : Handle} (hdone : compile source heap outer = (.function r, h)) :
    (Token.read source).Terminated := by
  obtain ⟨body, s, -, hrun, -, hclean⟩ := compile_reads hdone
  have : Clean (translateProgram body) := by
    unfold translateProgram
    infer_instance
  have hnone : (State.start source heap outer).errors = #[] := clean_of_run hrun hclean
  have hproblems : (Token.read source).problems = #[] := by simpa [State.start] using hnone
  intro p hp
  rw [hproblems] at hp
  exact absurd hp (Array.not_mem_empty p)

/-- Statements in sequence have their tokens in sequence. -/
theorem Stmt.listTokens_append (front back : List Stmt) :
    Stmt.listTokens (front ++ back) = Stmt.listTokens front ++ Stmt.listTokens back := by
  induction front with
  | nil => rfl
  | cons s front ih => rw [List.cons_append, Stmt.listTokens, Stmt.listTokens, ih, List.append_assoc]

/-- Programs one behind the other are spelled one behind the other. -/
theorem Spells.append {front back : List Stmt} {ts us : List Token} (h : Spells front ts)
    (h' : Spells back us) : Spells (front ++ back) (ts ++ us) where
  tokens := by rw [Stmt.listTokens_append, h.tokens, h'.tokens]
  grammatical := by
    have hfront := h.grammatical
    clear h
    induction front with
    | nil => exact h'.grammatical
    | cons s front ih => exact ⟨hfront.1, ih hfront.2⟩

/-! ### Between the statements of a script -/

namespace Compile

variable {p : Pairing} {before before' : Heap} {s t : State}

/-- The lowest local, if there is no other one. -/
theorem Rooted.exists_root {ls : List Local} (h : Rooted ls) (hone : ls.length = 1) :
    ∃ l, ls = [l] ∧ l.name = "" ∧ l.depth = some 0 ∧ l.captured = false := by
  cases h with
  | root name depth captured => exact ⟨_, rfl, name, depth, captured⟩
  | above rest =>
    have := rest.length_pos
    rw [List.length_cons] at hone
    omega

/-- A script is being compiled, and no scope is open in it. -/
structure State.Outset (s : State) : Prop where
  enclosing : s.enclosing = []
  classes : s.classes = []
  kind : s.draft.kind = .script
  name : s.draft.name = none
  arity : s.draft.arity = 0
  pooled : s.draft.Pooled
  captures : s.draft.captures = #[]
  scopeDepth : s.draft.scopeDepth = 0
  locals : s.draft.locals.length = 1 ∧ Rooted s.draft.locals

/-- A script starts at the outset. -/
theorem outset_start (source : String) (heap : Heap) (outer : List Handle) :
    (State.start source heap outer).Outset :=
  ⟨rfl, rfl, rfl, rfl, rfl, Draft.pooled_start _ _, rfl, rfl, rfl, .root rfl rfl rfl⟩

/-- Two such states are twins if their heaps correspond. -/
theorem State.Outset.twins (hs : s.Outset) (ht : t.Outset) (hleft : s.Live before)
    (hright : t.Live before') (hp : p.Heaps s.heap t.heap) (hlines : ¬ p.terms.sameLines)
    (hfresh : ∀ x y, ¬ s.heap.Reachable s.roots x → ¬ t.heap.Reachable t.roots y →
      p.terms.functions x y) : p.Twins before before' s t where
  left := hleft
  right := hright
  heaps := hp
  lines := hlines
  fresh := hfresh
  classes := hs.classes.trans ht.classes.symm
  drafts := by
    have hlocals : List.Forall₂ Local.Same s.draft.locals t.draft.locals := by
      obtain ⟨l, hl, name, depth, captured⟩ := hs.locals.2.exists_root hs.locals.1
      obtain ⟨m, hm, name', depth', captured'⟩ := ht.locals.2.exists_root ht.locals.1
      rw [hl, hm]
      exact .cons ⟨name.trans name'.symm, depth.trans depth'.symm,
        captured.trans captured'.symm⟩ .nil
    rw [State.drafts, State.drafts, hs.enclosing, ht.enclosing]
    refine .script ⟨hs.kind.trans ht.kind.symm, ?_, hs.arity.trans ht.arity.symm, hs.pooled,
      ht.pooled, hlocals, hs.captures.trans ht.captures.symm,
      hs.scopeDepth.trans ht.scopeDepth.symm⟩ hs.kind ⟨?_, hs.locals.2⟩
    · rw [hs.name, ht.name]
      exact .none
    · rw [hs.locals.1]
      decide

/-- What twins of such a state are. -/
theorem State.Outset.congr (hs : s.Outset) (h : p.Twins before before' s t) : t.Outset where
  enclosing := h.drafts.nil_iff.mp hs.enclosing
  classes := h.classes.symm.trans hs.classes
  kind := h.drafts.twin.kind.symm.trans hs.kind
  name := by
    have hname := h.drafts.twin.name
    rw [hs.name] at hname
    cases heq : t.draft.name with
    | none => rfl
    | some x =>
      rw [heq] at hname
      cases hname
  arity := h.drafts.twin.arity.symm.trans hs.arity
  pooled := h.drafts.twin.pooled'
  captures := h.drafts.twin.captures.symm.trans hs.captures
  scopeDepth := h.drafts.twin.scopeDepth.symm.trans hs.scopeDepth
  locals := by
    have hlocals := h.drafts.twin.locals
    refine ⟨hlocals.length_eq.symm.trans hs.locals.1, ?_⟩
    obtain ⟨l, hl, name, depth, captured⟩ := hs.locals.2.exists_root hs.locals.1
    rw [hl] at hlocals
    generalize t.draft.locals = ms at hlocals ⊢
    cases hlocals with
    | cons same rest =>
      cases rest
      exact .root (same.name.symm.trans name) (same.depth.symm.trans depth)
        (same.captured.symm.trans captured)

end Compile

/-! ### Code that two scripts share -/

namespace Pairing

variable {F : Handle → Handle → Prop}

/-- Nothing is paired yet, lines do not count, and only the functions that `F` tells of may stand
for each other. -/
def blank (F : Handle → Handle → Prop) : Pairing := { nothing with terms := ⟨False, none, F⟩ }

/-- Any sound heaps correspond while nothing is paired. -/
theorem heaps_blank {h h' : Heap} (hs : h.Sound) (hs' : h'.Sound) : (blank F).Heaps h h' :=
  ⟨hs, hs', fun _ _ hxy => hxy.elim, fun _ _ _ hxy => hxy.elim⟩

end Pairing

/-- The words `v` of a script and `w` of another one, each in a heap of its own, are the same up to
where the constants are that they name. -/
structure Prototype.Shared (p : Pairing) (h h' : Heap) (f f' : Prototype)
    (L : UInt16 → UInt16 → Prop) (v w : List UInt32) : Prop where
  heaps : p.Heaps h h'
  links : ∀ k l, L k l → Option.Rel p.Values f.chunk.constants[k.toNat]? f'.chunk.constants[l.toNat]?
  aligned : Aligned L (fun k n => f.captureCount h k = n) v w

/-- Wherever an instruction of the shared code starts, the other script has the same. -/
theorem Prototype.Shared.shares {p : Pairing} {h h' : Heap} {f f' : Prototype}
    {L : UInt16 → UInt16 → Prop} {pre post post' v w : List UInt32} {x y : Handle} {d : Nat}
    (hs : Shared p h h' f f' L v w) (hf : f.Outer h) (hleft : f.chunk.code.toList = v ++ post)
    (hright : f'.chunk.code.toList = pre ++ w ++ post') (hd : d < v.length) (hstart : f.Starts h d) :
    ∃ i j, Passage.Shares ⟨⟨x, f.chunk, 0⟩, ⟨y, f'.chunk, pre.length⟩, L⟩ h d (pre.length + d) i j := by
  have hshares := hs.aligned.shares (e := ⟨⟨x, f.chunk, 0⟩, ⟨y, f'.chunk, pre.length⟩, L⟩) (a := [])
    (d := d) hf rfl hleft hright (fun _ _ => id) .zero hd (by simpa using hstart)
  simpa using hshares

namespace Compile

variable {p q : Pairing} {before before' h h' : Heap} {s s' t t' : State} {f f' : Prototype}
  {v w : List UInt32}

/-- The script in the making becomes `f`, and all that it keeps alive is in the heap `h`. -/
structure State.Becomes (s : State) (h : Heap) (f : Prototype) : Prop where
  constants : s.draft.chunk.constants.toList <+: f.chunk.constants.toList
  kept : ∀ x, s.heap.Reachable s.roots x → h.object? x = s.heap.object? x

/-- What comes of a later state comes of an earlier one. -/
theorem State.Gains.becomes (hs : s.Gains before s' v) (h' : s'.Becomes h f) : s.Becomes h f where
  constants := hs.constants.trans h'.constants
  kept x hx := (h'.kept x (hs.reachable hx)).trans (hs.kept x hx)

/-- What twins add to two scripts is code that these share, up to what was paired or is kept alive
by the states. -/
theorem Tandem.shared {flat : Bool} (ht : Tandem flat before before' p s t q s' t' v w)
    (hscript : s.enclosing = []) (hs : s'.Becomes h f) (hs' : t'.Becomes h' f') (hsound : h.Sound)
    (hsound' : h'.Sound) : ∃ r L, Prototype.Shared r h h' f f' L v w ∧ r.terms = p.terms ∧
      (∀ x y, p.Pairs x y → s.heap.Reachable s.roots x → t.heap.Reachable t.roots y →
        r.Pairs x y) ∧ ∀ x y, r.Pairs x y → t'.heap.Reachable t'.roots y := by
  refine ⟨q.keep (s'.heap.Reachable s'.roots) (t'.heap.Reachable t'.roots), q.Matches s' t',
    ⟨ht.twins.heaps.keep Pairing.closed_reachable Pairing.closed_reachable
      hsound hsound' hs.kept hs'.kept, fun k l hkl => ?_, (ht.words hscript).imp (fun _ _ => id)
      fun k n hk => ?_⟩, ht.terms, fun x y hxy hx hy => ?_, fun x y hxy => hxy.2.2⟩
  · obtain ⟨⟨a, b, ha, hb, hab⟩, -⟩ := hkl
    have hget := prefix_getElem? hs.constants ha
    have hget' := prefix_getElem? hs'.constants hb
    rw [Array.getElem?_toList] at hget hget'
    rw [hget, hget']
    cases hab with
    | plain at_ => exact .some (.plain at_)
    | reference pair =>
      exact .some (.reference ⟨pair, .root (State.constant_mem_roots ha),
        .root (State.constant_mem_roots hb)⟩)
  · obtain ⟨x, a, hx, ha, rfl⟩ := hk
    have hget := prefix_getElem? hs.constants hx
    rw [Array.getElem?_toList] at hget
    refine Prototype.captureCount_of_function (x := x) ?_ ?_
    · rw [hget, Option.bind_some, Value.toHandle?_ofHandle]
    · rw [hs.kept x (.root (State.constant_mem_roots hx)), ha]
  · exact ⟨ht.pairs x y hxy hx hy, ht.left.reachable hx, ht.right.reachable hy⟩

/-- Two such states are translated alike from there on, whatever their heaps hold. -/
theorem State.Outset.along {source : String} {body : List Stmt} (hs : s.Outset) (ht : t.Outset)
    (hleft : s.Live before) (hright : t.Live before') (hspells : Spells body (sourceTokens source))
    (hp : p.Heaps s.heap t.heap) (hlines : ¬ p.terms.sameLines)
    (hfresh : ∀ x y, ¬ s.heap.Reachable s.roots x → ¬ t.heap.Reachable t.roots y →
      p.terms.functions x y)
    (hx : Stmt.listTranslate body s = .ok () s') (hy : Stmt.listTranslate body t = .ok () t') :
    ∃ q v w, Tandem false before before' p s t q s' t' v w := by
  have hproper : ProperNames (Stmt.listTokens body) := hspells.tokens ▸ properNames_source source
  obtain ⟨q, v, w, htandem, -⟩ := Stmt.along_list
    (fun u hu => u.along (properNames_statements hproper u hu))
    (hs.twins ht hleft hright hp hlines hfresh) _ _ _ _ hx hy
  exact ⟨q, v, w, htandem⟩

/-- Statements one behind the other are translated one behind the other. -/
theorem run_listTranslate_append {pre post : List Stmt}
    (h : Stmt.listTranslate (pre ++ post) s = .ok () s') :
    ∃ s₁, Stmt.listTranslate pre s = .ok () s₁ ∧ Stmt.listTranslate post s₁ = .ok () s' := by
  induction pre generalizing s with
  | nil => exact ⟨s, rfl, h⟩
  | cons t pre ih =>
    rw [List.cons_append, Stmt.listTranslate] at h
    obtain ⟨_, s₁, hfirst, h⟩ := run_bind.mp h
    obtain ⟨s₂, hpre, hpost⟩ := ih h
    exact ⟨s₂, by rw [Stmt.listTranslate]; exact run_then hfirst hpre, hpost⟩

/-- A source that is compiled comes to a script of the statements of its tree. -/
theorem compiled {source : String} {heap h : Heap} {outer : List Handle} {r : Handle}
    (hs : heap.Sound) (hc : heap.Covers outer)
    (hdone : compile source heap outer = (.function r, h)) : ∃ body s f,
      Spells body (sourceTokens source) ∧
      Stmt.listTranslate body (State.start source heap outer) = .ok () s ∧
      h.object? r = some (.function f) ∧ s.Becomes h f ∧ s.Outset ∧ h.Sound ∧
      f.chunk.code.toList = s.draft.chunk.code.toList ++ FunctionKind.finalReturn .script := by
  obtain ⟨body, s, f, hspells, hrun, hobject, hcompletes, hcode, -⟩ :=
    translated_of_compile hs hc hdone
  have hspec := compile_spec source hs hc
  rw [hdone] at hspec
  obtain ⟨ws, hadds, hws⟩ := scripts_of_acts (fun t ht => t.acts (hspells.grammatical.mem ht)) _
    (State.start source heap outer) _ s (steady_start hs hc) rfl rests_start hrun
  obtain ⟨hgrows, hcodes⟩ := hws _ hcompletes
  have houter : Body.Rooted ⟨h, .script, f.chunk.constants.toList, [], []⟩ :=
    fun level hlevel => by cases hlevel
  have hpasses := hcodes.passes (fun s _ _ _ _ hs ht hp h => h.passes houter hs ht hp)
    (Scope.rooted_start .script []) (fun _ => ⟨rfl, rfl⟩)
    (hspells.tokens ▸ properNames_source source)
  -- the same translation twice: slot zero is not captured in it
  have hlive : (State.start source heap outer).Live heap := live_start hs hc
  obtain ⟨q, v, w, htandem⟩ := (outset_start source heap outer).along
    (outset_start source heap outer) hlive hlive hspells
    (Pairing.heaps_blank (F := fun _ _ => True) hlive.sound hlive.sound) id
    (fun _ _ _ _ => trivial) hrun hrun
  have hnone : s.enclosing = [] := hadds.enclosing.nil_inv
  have hroot := (htandem.twins.drafts.grounded hnone).root
  have hone : s.site.scope.length = 1 := (hpasses.topmost rfl).1
  refine ⟨body, s, f, hspells, hrun, hobject, ⟨hcompletes.constants, hcompletes.heap⟩,
    ⟨hnone, hgrows.classes, hadds.kind, hadds.name, hgrows.arity,
      (hadds.steady.tidy _ List.mem_cons_self).pooled, ?_, hgrows.depth, ?_, hroot⟩,
    hspec.1.sound, hcode⟩
  · simpa using hcompletes.captures
  · have hrests : s.site.Rests := hgrows.rests rests_start
    rw [← hone, Site.scope, scopeOf, List.length_map, List.filter_eq_self.mpr]
    · rfl
    · intro l hl
      obtain ⟨k, -, hk⟩ := hrests l hl
      rw [hk]
      rfl

/-- The script of two sources with a newline in between has the code of the first one's script and
then that of the second one's, each without the final return. What was paired before the first piece
stays paired; `N` tells what then is kept alive of the whole, and the functions of the second piece
are paired with none of that. -/
theorem compile_join {a b : String} {heap heap₁ heap₂ h h₁ h₂ : Heap}
    {outer outer₁ outer₂ : List Handle} {r r₁ r₂ : Handle} (hs : heap.Sound) (hc : heap.Covers outer)
    (hs₁ : heap₁.Sound) (hc₁ : heap₁.Covers outer₁) (hs₂ : heap₂.Sound) (hc₂ : heap₂.Covers outer₂)
    (hdone₁ : compile a heap₁ outer₁ = (.function r₁, h₁))
    (hdone₂ : compile b heap₂ outer₂ = (.function r₂, h₂))
    (hdone : compile (a ++ "\n" ++ b) heap outer = (.function r, h))
    (hp : p.Heaps heap₁ heap) (hlines : ¬ p.terms.sameLines)
    (hfunctions : ∀ x y, p.terms.functions x y) :
    ∃ f f₁ f₂ v₁ v₂ w₁ w₂, ∃ N : Handle → Prop, h.object? r = some (.function f) ∧
      h₁.object? r₁ = some (.function f₁) ∧ h₂.object? r₂ = some (.function f₂) ∧
      f.chunk.code.toList = w₁ ++ w₂ ++ FunctionKind.finalReturn .script ∧
      f₁.chunk.code.toList = v₁ ++ FunctionKind.finalReturn .script ∧
      f₂.chunk.code.toList = v₂ ++ FunctionKind.finalReturn .script ∧
      (∃ q L, Prototype.Shared q h₁ h f₁ f L v₁ w₁ ∧
        (∀ x y, p.Pairs x y → heap₁.Reachable outer₁ x → heap.Reachable outer y → q.Pairs x y) ∧
        ∀ x y, q.Pairs x y → N y) ∧
      ∃ q L, Prototype.Shared q h₂ h f₂ f L v₂ w₂ ∧
        ∀ x y g, q.Pairs x y → h₂.object? x = some (.function g) →
          ¬ heap₂.Reachable outer₂ x ∧ ¬ N y := by
  obtain ⟨front, s₁, f₁, hfront, hrun₁, hf₁, hbecomes₁, houtset₁, hsound₁, hcode₁⟩ :=
    compiled hs₁ hc₁ hdone₁
  obtain ⟨back, s₂, f₂, hback, hrun₂, hf₂, hbecomes₂, -, hsound₂, hcode₂⟩ := compiled hs₂ hc₂ hdone₂
  obtain ⟨body, s, f, hbody, hrun, hf, hbecomes, -, hsound, hcode⟩ := compiled hs hc hdone
  have htokens := sourceTokens_join (b := b) (terminated_of_compile hdone₁)
  obtain rfl := hbody.unique (htokens ▸ hfront.append hback)
  obtain ⟨t, hrunfront, hrunback⟩ := run_listTranslate_append hrun
  obtain ⟨q₁, v₁, w₁, htandem₁⟩ := (outset_start _ _ _).along (outset_start _ _ _)
    (live_start hs₁ hc₁) (live_start hs hc) hfront hp hlines (fun x y _ _ => hfunctions x y)
    hrun₁ hrunfront
  -- nothing need be paired before the second piece, as nothing of it is translated yet
  have hlive := htandem₁.right.live
  obtain ⟨q₂, v₂, w₂, htandem₂⟩ := (outset_start b heap₂ outer₂).along
    (houtset₁.congr htandem₁.twins) (live_start hs₂ hc₂) hlive hback
    (p := Pairing.blank fun x y => ¬ heap₂.Reachable outer₂ x ∧ ¬ t.heap.Reachable t.roots y)
    (Pairing.heaps_blank (live_start hs₂ hc₂).sound hlive.sound)
    id (fun x y hx hy => ⟨hx, hy⟩) hrun₂ hrunback
  obtain ⟨r₁, L₁, hshared₁, -, hpairs₁, hnew₁⟩ := htandem₁.shared rfl hbecomes₁
    (htandem₂.right.becomes hbecomes) hsound₁ hsound
  obtain ⟨r₂, L₂, hshared₂, hterms₂, -, -⟩ := htandem₂.shared rfl hbecomes₂ hbecomes hsound₂ hsound
  refine ⟨f, f₁, f₂, v₁, v₂, w₁, w₂, fun y => t.heap.Reachable t.roots y, hf, hf₁, hf₂, ?_, ?_, ?_,
    ⟨r₁, L₁, hshared₁, hpairs₁, hnew₁⟩, r₂, L₂, hshared₂, fun x y g hxy hx => ?_⟩
  · rw [hcode, htandem₂.right.code, htandem₁.right.code]
    rfl
  · rw [hcode₁, htandem₁.left.code]
    rfl
  · rw [hcode₂, htandem₂.left.code]
    rfl
  · have hfresh := hshared₂.heaps.functions x y g hxy hx
    rw [hterms₂] at hfresh
    exact hfresh

end Compile

end ScriptMachine
