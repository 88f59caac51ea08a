import ScriptMachine.Proofs.Meaning.Programs
import ScriptMachine.Proofs.Parallel.Abreast
import ScriptMachine.Proofs.Session.Errors

/-!
# A script in pieces

A script that is fed to a machine in two pieces comes to the same as both pieces at once, with a
newline in between. The script of both has the code of the first piece and then that of the second
one. While a machine runs the first piece, another one that runs both is abreast of it; when the
first is done, its final return changes nothing that scripts see, and what was compiled for the
second piece starts abreast of the rest of the script of both.
-/

namespace ScriptMachine

open Compile (FunctionKind)

namespace Machine

variable {m m' n : Machine} {c c' : Course} {y z : Handle} {k : Nat}

/-! ### The final return -/

/-- What no script sees was changed, but for the stack, the frames and the clock. -/
structure Settles (m m' : Machine) : Prop where
  heap : m.heap.Alike m'.heap
  globals : m'.globals = m.globals
  openUpvalues : m'.openUpvalues = m.openUpvalues
  initName : m'.initName = m.initName
  framesMax : m'.framesMax = m.framesMax
  sink : m'.sink = m.sink

/-- Changing nothing twice is changing nothing. -/
theorem Settles.trans {m₁ : Machine} (h : m.Settles m₁) (h' : m₁.Settles m') : m.Settles m' :=
  ⟨⟨h'.heap.slots.trans h.heap.slots, h'.heap.marks.trans h.heap.marks,
      h'.heap.free.trans h.heap.free, h'.heap.gray.trans h.heap.gray,
      h'.heap.strings.trans h.heap.strings⟩,
    h'.globals.trans h.globals, h'.openUpvalues.trans h.openUpvalues, h'.initName.trans h.initName,
    h'.framesMax.trans h.framesMax, h'.sink.trans h.sink⟩

/-- The script alone is active and has `k` instructions left, those of its final return. -/
inductive Closing (c : Course) (y : Handle) : Nat → Machine → Prop
  | null {m : Machine} (alone : m.Alone c y c.row.words.length) : Closing c y 2 m
  | return_ {m : Machine} (stack : m.stack = #[.ofHandle y, .null])
      (frames : m.frames = #[⟨y, c.function.chunk, c.row.words.length + 1, 0⟩])
      (openUpvalues : m.openUpvalues = []) : Closing c y 1 m

/-- A word of the final return. -/
theorem code_last {j : Nat} (i : Instr)
    (hi : (FunctionKind.finalReturn .script)[j]? = some i.encode) :
    (c.function.chunk.code[c.row.words.length + j]?).bind Instr.decode? = some i := by
  rw [← Array.getElem?_toList, c.code, List.getElem?_append_right (Nat.le_add_right _ _),
    Nat.add_sub_cancel_left, hi]
  exact Instr.decode?_encode i

/-- A step of the final return: the last one ends the run. -/
theorem Closing.step (h : Closing c y k m) : (∃ f m', Exec.step m = .error (.fault f) m') ∨
    (k = 2 ∧ ∃ m', Exec.step m = .ok .running m' ∧ Closing c y 1 m' ∧ m.Settles m') ∨
    (k = 1 ∧ ∃ m', Exec.step m = .ok .finished m' ∧ m.Settles m') := by
  rcases Exec.step_cases m with hfault | ⟨f, i, h', hback, hi, halike, hreturn, hperform⟩
  · exact .inl hfault
  refine .inr ?_
  cases h with
  | null alone =>
    obtain ⟨hstack, hframes, hopen⟩ := alone
    obtain rfl : ⟨y, c.function.chunk, c.row.words.length, 0⟩ = f := by
      rw [hframes] at hback
      exact Option.some.inj hback
    rw [next?, hback, Option.bind_some,
      show c.function.chunk.code[c.row.words.length]?.bind _ = _ from code_last (j := 0) .null rfl]
      at hi
    obtain rfl := Option.some.inj hi
    refine .inl ⟨rfl, _, hperform (by decide), .return_ ?_ ?_ hopen,
      ⟨halike, rfl, rfl, rfl, rfl, rfl⟩⟩
    · show m.stack.push .null = _
      rw [hstack]
      rfl
    · show m.frames.pop.push _ = _
      rw [hframes]
      rfl
  | return_ stack frames openUpvalues =>
    obtain rfl : ⟨y, c.function.chunk, c.row.words.length + 1, 0⟩ = f := by
      rw [frames] at hback
      exact Option.some.inj hback
    rw [next?, hback, Option.bind_some,
      show c.function.chunk.code[c.row.words.length + 1]?.bind _ = _ from
        code_last (j := 1) .return_ rfl] at hi
    obtain rfl := Option.some.inj hi
    have hframes : (m.fetched ⟨y, c.function.chunk, c.row.words.length + 1, 0⟩ h').frames =
        #[⟨y, c.function.chunk, c.row.words.length + 2, 0⟩] := by
      show m.frames.pop.push _ = _
      rw [frames]
      rfl
    have hstack : m.stack = (#[.ofHandle y] : Array Value).push .null := stack
    exact .inr ⟨rfl, _, (hreturn rfl).trans (Exec.return_outermost hframes hstack openUpvalues),
      ⟨halike, rfl, rfl, rfl, rfl, rfl⟩⟩

/-- The final return in one run. -/
theorem Closing.run (h : Closing c y k m) (fuel : Nat) :
    (∃ f m', Exec.run fuel m = .error (.fault f) m') ∨
    (fuel < k ∧ ∃ m', Exec.run fuel m = .ok .running m' ∧ Closing c y (k - fuel) m' ∧
      m.Settles m') ∨
    (k ≤ fuel ∧ ∃ m', Exec.run fuel m = .ok .finished m' ∧ m.Settles m') := by
  have hpos : 0 < k := by cases h <;> omega
  induction fuel generalizing m k with
  | zero =>
    exact .inr (.inl ⟨hpos, m, rfl, h, ⟨.refl _, rfl, rfl, rfl, rfl, rfl⟩⟩)
  | succ fuel ih =>
    rw [Exec.run]
    rcases h.step with ⟨f, m', hfault⟩ | ⟨rfl, m₁, hstep, hnext, hsettles⟩ |
      ⟨rfl, m₁, hstep, hsettles⟩
    · exact .inl ⟨f, m', Exec.bind_error hfault⟩
    · rw [Exec.bind_eq hstep]
      rcases ih hnext Nat.one_pos with hfault | ⟨hlt, m', hrun, hleft, hsettles'⟩ |
        ⟨hle, m', hrun, hsettles'⟩
      · exact .inl hfault
      · exact .inr (.inl ⟨by omega, m', hrun, by rwa [show 2 - (fuel + 1) = 1 - fuel by omega],
          hsettles.trans hsettles'⟩)
      · exact .inr (.inr ⟨by omega, m', hrun, hsettles.trans hsettles'⟩)
    · rw [Exec.bind_eq hstep]
      exact .inr (.inr ⟨by omega, m₁, rfl, hsettles⟩)

/-- The instructions that slices last for. -/
def fuels (slices : List (Float × Nat)) : Nat := (slices.map Prod.snd).sum

/-- The final return in slices. -/
theorem Closing.runSlices (h : Closing c y k m) (slices : List (Float × Nat)) :
    (∃ f m', m.runSlices slices = (.fault f, m')) ∨
    (fuels slices < k ∧ ∃ m', m.runSlices slices = (.unfinished, m') ∧ m.Settles m') ∨
    (k ≤ fuels slices ∧ ∃ m', m.runSlices slices = (.ok, m') ∧ m.Settles m') := by
  induction slices generalizing m k with
  | nil =>
    have hpos : 0 < k := by cases h <;> omega
    exact .inr (.inl ⟨hpos, m, rfl, ⟨.refl _, rfl, rfl, rfl, rfl, rfl⟩⟩)
  | cons slice rest ih =>
    obtain ⟨now, fuel⟩ := slice
    have hticked : Closing c y k { m with clock := now } := by
      cases h with
      | null alone => exact .null ⟨alone.stack, alone.frames, alone.openUpvalues⟩
      | return_ stack frames openUpvalues => exact .return_ stack frames openUpvalues
    have hclock : m.Settles { m with clock := now } := ⟨.refl _, rfl, rfl, rfl, rfl, rfl⟩
    rw [Machine.runSlices, resume, show fuels ((now, fuel) :: rest) = fuel + fuels rest from rfl]
    rcases hticked.run fuel with ⟨f, m', hfault⟩ | ⟨hlt, m₁, hrun, hnext, hsettles⟩ |
      ⟨hle, m₁, hrun, hsettles⟩
    · rw [hfault]
      exact .inl ⟨f, m', rfl⟩
    · rw [hrun]
      rcases ih hnext with hfault | ⟨hlt', m', hrun', hsettles'⟩ | ⟨hle', m', hrun', hsettles'⟩
      · exact .inl hfault
      · exact .inr (.inl ⟨by omega, m', hrun', hclock.trans (hsettles.trans hsettles')⟩)
      · exact .inr (.inr ⟨by omega, m', hrun', hclock.trans (hsettles.trans hsettles')⟩)
    · rw [hrun]
      exact .inr (.inr ⟨by omega, m₁, rfl, hclock.trans hsettles⟩)

/-- Changing nothing that scripts see leaves the globals the same. -/
theorem Settles.sameGlobals {n' : Machine} (hm : m.Settles m') (hn : n.Settles n')
    (h : SameGlobals m n) : SameGlobals m' n' := by
  obtain ⟨p, hheaps, hglobals⟩ := h.globals
  refine ⟨hm.sink.trans (h.sink.trans hn.sink.symm), p, hheaps.alike hm.heap hn.heap, ?_⟩
  rw [hm.globals, hn.globals]
  exact hglobals

/-- Two scripts that are in front of their final returns come to the same. -/
theorem Closing.same {σ τ : List (Float × Nat)} (h : Closing c y k m) (h' : Closing c' z k n)
    (hm : m.Ready) (hn : n.Ready) (hsame : SameGlobals m n) (hfuels : fuels σ = fuels τ) :
    SameRuns (m.runSlices σ) (n.runSlices τ) := by
  have hleads := leads_runSlices σ hm
  have hleads' := leads_runSlices τ hn
  rcases h.runSlices σ with ⟨f, m', hm'⟩ | hleft
  · rw [hm'] at hleads ⊢
    obtain rfl := hleads.arenaFull rfl
    exact .fullLeft
  rcases h'.runSlices τ with ⟨f, n', hn'⟩ | hright
  · rw [hn'] at hleads' ⊢
    obtain rfl := hleads'.arenaFull rfl
    exact .fullRight
  rcases hleft with ⟨hlt, m', hm', hsettles⟩ | ⟨hle, m', hm', hsettles⟩
  · rcases hright with ⟨-, n', hn', hsettles'⟩ | ⟨hle, -⟩
    · rw [hm', hn']
      exact .unfinished (hsettles.sameGlobals hsettles' hsame)
    · omega
  · rcases hright with ⟨hlt, -⟩ | ⟨-, n', hn', hsettles'⟩
    · omega
    · rw [hm', hn']
      exact .ok (hsettles.sameGlobals hsettles' hsame)

/-- What comes to its end by its final return was left as it was in front of it. -/
theorem Closing.settles {slices : List (Float × Nat)}
    (h : Closing c y k m) (hdone : m.runSlices slices = (.ok, m')) : m.Settles m' := by
  rcases h.runSlices slices with ⟨f, m₂, hfault⟩ | ⟨-, m₂, hrun, -⟩ | ⟨-, m₂, hrun, hsettles⟩
  · cases (Prod.mk.inj (hdone.symm.trans hfault)).1
  · cases (Prod.mk.inj (hdone.symm.trans hrun)).1
  · obtain ⟨-, rfl⟩ := Prod.mk.inj (hdone.symm.trans hrun)
    exact hsettles

end Machine

namespace Abreast

variable {e : Passage} {c c' : Course} {p : Pairing} {m n : Machine}

/-- When all that is left of both scripts is the passage, they come to the same. -/
theorem sameRuns (h : Abreast e c c' p m n) (hj : e.Joins c c')
    (hwhole : e.right.start + c.row.words.length = c'.row.words.length)
    (slices : List (Float × Nat)) : SameRuns (m.runSlices slices) (n.runSlices slices) := by
  rcases h.runSlices hj slices with ⟨front, now, used, more, back, q, mS, nS, -, -, hleft, hright,
    hS, -, hend⟩ | ⟨n', hfull⟩ | ⟨-, hsame⟩
  · obtain ⟨halone, halone'⟩ := hS.alone hj hend
    rw [hleft, hright]
    exact Machine.Closing.same (.null halone) (.null (hwhole ▸ halone')) hS.left.ready
      hS.right.ready hS.machines.sameGlobals rfl
  · rw [hfull]
    exact .fullRight
  · exact hsame

end Abreast

/-! ### The passages of two pieces -/

section Shared

variable {q p : Pairing} {c c' : Course} {L : UInt16 → UInt16 → Prop} {w pre post : List UInt32}
  {y z : Handle}

/-- The passage that starts behind the words `pre` of the other script. -/
def Course.passage (c c' : Course) (L : UInt16 → UInt16 → Prop) (y z : Handle) (start : Nat) :
    Passage := ⟨⟨y, c.function.chunk, 0⟩, ⟨z, c'.function.chunk, start⟩, L⟩

/-- Code that two scripts share is a passage. -/
theorem Prototype.Shared.joins
    (hs : Prototype.Shared q c.heap c'.heap c.function c'.function L c.row.words w)
    (hcode : c'.function.chunk.code.toList = pre ++ w ++ post) (y z : Handle) :
    (c.passage c' L y z pre.length).Joins c c' where
  left := rfl
  start := rfl
  right := rfl
  shares _ hd hstart := hs.shares ⟨c.wellFormed, c.isScript.upvalueCount⟩ c.code hcode hd hstart

/-- The constants of a passage correspond where all that the scripts lead to does. -/
theorem Prototype.Shared.linked
    (hs : Prototype.Shared q c.heap c'.heap c.function c'.function L c.row.words w) {start : Nat}
    (hpairs : ∀ x x', c.heap.Reachable [c.script] x → c'.heap.Reachable [c'.script] x' →
      q.Pairs x x' → p.Pairs x x') : p.Linked (c.passage c' L y z start) := by
  have hlinked : q.Linked (c.passage c' L y z start) := hs.links
  refine hlinked.carry fun v hv w hw x x' hx hx' => hpairs x x' ?_ ?_
  · exact (Heap.Reachable.root List.mem_cons_self).step c.object (.functionConstant hv hx)
  · exact (Heap.Reachable.root List.mem_cons_self).step c'.object (.functionConstant hw hx')

end Shared

/-- The courses of two sources and of both with a newline in between. The script of both has the
words of the first one and then those of the second one; the functions of the second one are paired
with none that is paired with one of the first. -/
theorem Compile.exists_joined {a b : String} {heap heap₁ heap₂ : Heap}
    {outer outer₁ outer₂ : List Handle} {p : Pairing} {c₁ c₂ c : Course} (hs : heap.Sound)
    (hc : heap.Covers outer) (hs₁ : heap₁.Sound) (hc₁ : heap₁.Covers outer₁) (hs₂ : heap₂.Sound)
    (hc₂ : heap₂.Covers outer₂) (hdone₁ : compile a heap₁ outer₁ = (.function c₁.script, c₁.heap))
    (hdone₂ : compile b heap₂ outer₂ = (.function c₂.script, c₂.heap))
    (hdone : compile (a ++ "\n" ++ b) heap outer = (.function c.script, c.heap))
    (hp : p.Heaps heap₁ heap) (hlines : ¬ p.terms.sameLines)
    (hfunctions : ∀ x y, p.terms.functions x y) :
    ∃ w₁ w₂, ∃ N : Handle → Prop,
      c.function.chunk.code.toList = w₁ ++ w₂ ++ FunctionKind.finalReturn .script ∧
      (∃ q L, Prototype.Shared q c₁.heap c.heap c₁.function c.function L c₁.row.words w₁ ∧
        (∀ x y, p.Pairs x y → heap₁.Reachable outer₁ x → heap.Reachable outer y → q.Pairs x y) ∧
        ∀ x y, q.Pairs x y → N y) ∧
      ∃ q L, Prototype.Shared q c₂.heap c.heap c₂.function c.function L c₂.row.words w₂ ∧
        ∀ x y g, q.Pairs x y → c₂.heap.object? x = some (.function g) →
          ¬ heap₂.Reachable outer₂ x ∧ ¬ N y := by
  obtain ⟨f, f₁, f₂, v₁, v₂, w₁, w₂, N, hf, hf₁, hf₂, hcode, hcode₁, hcode₂,
    ⟨q, L, hshared, hpairs, hnew⟩, q', L', hshared', hfresh⟩ :=
    compile_join hs hc hs₁ hc₁ hs₂ hc₂ hdone₁ hdone₂ hdone hp hlines hfunctions
  obtain rfl := Object.function.inj (Option.some.inj (hf.symm.trans c.object))
  obtain rfl := Object.function.inj (Option.some.inj (hf₁.symm.trans c₁.object))
  obtain rfl := Object.function.inj (Option.some.inj (hf₂.symm.trans c₂.object))
  obtain rfl := List.append_cancel_right (hcode₁.symm.trans c₁.code)
  obtain rfl := List.append_cancel_right (hcode₂.symm.trans c₂.code)
  exact ⟨w₁, w₂, N, hcode, ⟨q, L, hshared, hpairs, hnew⟩, q', L', hshared', hfresh⟩

/-! ### At the starts of the pieces -/

namespace Machine

variable {m m' m₁ L R n nS mS : Machine} {c c' c₁ c₂ : Course} {x y z : Handle}
  {source other : String} {q p : Pairing} {links : UInt16 → UInt16 → Prop}
  {w pre post : List UInt32} {N : Handle → Prop}

namespace Begins

/-- What was kept alive is still there. -/
theorem kept_before (h : m.Begins source c y L) (hs : m.heap.Sound) (hc : m.heap.Covers m.roots)
    (hx : m.Keeps x) : c.heap.object? x = m.heap.object? x ∧ c.heap.Reachable m.roots x ∧
      L.heap.object? x = m.heap.object? x := by
  have hspec := Compile.compile_spec source hs hc
  rw [h.compiled] at hspec
  have hkept (z : Handle) (hz : m.heap.Reachable m.roots z) :
      c.heap.object? z = m.heap.object? z := hspec.1.kept z hz
  have hreach : c.heap.Reachable m.roots x := by
    induction hx with
    | root mem => exact .root mem
    | step before object stores ih => exact ih.step ((hkept _ before).trans object) stores
  exact ⟨hkept x hx, hreach,
    (h.kept x (hreach.mono fun _ => List.mem_cons_of_mem _)).trans (hkept x hx)⟩

/-- What the script leads to is there. -/
theorem kept_script (h : m.Begins source c y L) (hx : c.heap.Reachable [c.script] x) :
    L.heap.object? x = c.heap.object? x :=
  h.kept x (hx.mono fun _ hz => List.mem_singleton.mp hz ▸ List.mem_cons_self)

/-- A machine that starts a script is abreast of one that has come to a passage like it. -/
theorem abreast {start : Nat} (h : m.Begins source c y L) (hn : n.OnCourse c' z)
    (halone : n.Alone c' z start) (hj : (c.passage c' links y z start).Joins c c')
    (hp : p.Heaps L.heap n.heap) (hglobals : p.Tables L.globals n.globals)
    (hinit : p.Pairs L.initName n.initName) (hmax : L.framesMax = n.framesMax)
    (hsink : L.sink = n.sink) (hclock : L.clock = n.clock)
    (he : p.terms.passage = some (c.passage c' links y z start))
    (hlinked : p.Linked (c.passage c' links y z start)) :
    Abreast (c.passage c' links y z start) c c' p L n where
  passage := he
  machines := hp.machines hglobals hinit hmax hsink hclock h.onCourse hn h.alone halone he hj rfl
    hlinked
  left := h.onCourse
  right := hn
  within g hg := by
    rw [h.alone.frames] at hg
    obtain rfl := Option.some.inj hg
    exact Nat.zero_le _

end Begins

/-- The terms on which two scripts are compared that share a passage: lines do not count, and the
functions that `F` tells of may stand for each other. -/
def passing (e : Passage) (F : Handle → Handle → Prop) : Terms := ⟨False, some e, F⟩

/-- The script of a source and the script of a longer one start abreast, on machines that were
alike before. -/
theorem exists_abreast (hm : m.Rests) (hq : q.Machines m m) (hL : m.Begins source c₁ y L)
    (hR : m.Begins other c z R)
    (hs : Prototype.Shared p c₁.heap c.heap c₁.function c.function links c₁.row.words w)
    (hcode : c.function.chunk.code.toList = w ++ post)
    (hpairs : ∀ x x', q.Pairs x x' → m.heap.Reachable m.roots x → m.heap.Reachable m.roots x' →
      p.Pairs x x') (hnew : ∀ x x', p.Pairs x x' → N x') :
    ∃ u : Pairing, u.terms = passing (c₁.passage c links y z 0) (fun _ x' => N x') ∧
      Abreast (c₁.passage c links y z 0) c₁ c u L R := by
  obtain ⟨W, hshows⟩ := hm
  have hcovers := hshows.covers hshows.lists
  obtain ⟨_, _, hshowsL⟩ := InPhase.shows (p := .running) hL.onCourse.ready
  obtain ⟨_, _, hshowsR⟩ := InPhase.shows (p := .running) hR.onCourse.ready
  have hheaps := (hs.heaps.keep Pairing.closed_reachable Pairing.closed_reachable hshowsL.sound
    hshowsR.sound hL.kept hR.kept).under
      (t := passing (c₁.passage c links y z 0) fun _ x' => N x') False.elim
    (fun x j => hL.onCourse.ready.not_standsFor hL.alone.openUpvalues x j)
    fun x x' f hxx' _ => hnew x x' hxx'.1
  have hroots {x x' : Handle} (hxx' : q.Pairs x x') (hx : m.Keeps x) (hx' : m.Keeps x') :
      (p.keep (c₁.heap.Reachable (c₁.script :: m.roots))
        (c.heap.Reachable (c.script :: m.roots))).Pairs x x' :=
    ⟨hpairs x x' hxx' hx hx',
      (hL.kept_before hshows.sound hcovers hx).2.1.mono fun _ => List.mem_cons_of_mem _,
      (hR.kept_before hshows.sound hcovers hx').2.1.mono fun _ => List.mem_cons_of_mem _⟩
  refine ⟨_, rfl, hL.abreast hR.onCourse hR.alone
    (hs.joins (show _ = [] ++ w ++ post from hcode) y z) hheaps ?_ ?_
    (hL.framesMax.trans hR.framesMax.symm) (hL.sink.trans hR.sink.symm)
    (hL.clock.trans hR.clock.symm) rfl (hs.linked fun x x' hx hx' hxx' => ⟨hxx', ?_, ?_⟩)⟩
  · rw [hL.globals, hR.globals]
    refine hq.globals.carry fun x x' hx hxx' => ?_
    obtain ⟨x'', hx'', hpair⟩ := hq.globals.stores hx
    obtain rfl := q.unique.2 hxx' hpair
    exact hroots hxx' (keeps_global hx) (keeps_global hx'')
  · rw [hL.initName, hR.initName]
    exact hroots hq.initName (keeps_initName m) (keeps_initName m)
  · exact hx.mono fun _ hz => List.mem_singleton.mp hz ▸ List.mem_cons_self
  · exact hx'.mono fun _ hz => List.mem_singleton.mp hz ▸ List.mem_cons_self

section Next

variable {first : Passage} (hm₁ : m₁.Rests) (h : Abreast first c₁ c p mS nS)
  (hterms : p.terms = passing first fun _ x' => N x') (hS : mS.Settles m₁)
  (hL : m₁.Begins source c₂ y L)
  (hs : Prototype.Shared q c₂.heap c.heap c₂.function c.function links c₂.row.words w)
  (hfresh : ∀ x x' g, q.Pairs x x' → c₂.heap.object? x = some (.function g) →
    ¬ m₁.heap.Reachable m₁.roots x ∧ ¬ N x')

include h hterms hS hL hs hfresh

/-- The functions of the second script are new on both sides. -/
theorem Begins.apart {x' a a' : Handle} {f : Prototype} (hxx' : p.Pairs x x') (hkeeps : m₁.Keeps x)
    (hkept : L.heap.object? x = m₁.heap.object? x) (haa' : q.Pairs a a')
    (ha : c₂.heap.Reachable [c₂.script] a) (ha' : c.heap.Reachable [c.script] a')
    (hx : L.heap.object? x = some (.function f)) : x ≠ a ∧ x' ≠ a' := by
  have hbefore : mS.heap.object? x = some (.function f) :=
    (hS.heap.object? x).symm.trans (hkept.symm.trans hx)
  constructor
  · rintro rfl
    exact (hfresh x a' f haa' ((hL.kept_script ha).symm.trans hx)).1 hkeeps
  · rintro rfl
    have hold := h.machines.heaps.functions x x' f hxx' hbefore
    rw [hterms] at hold
    obtain ⟨o, o', ho, ho', hcorr⟩ := hs.heaps.objects a x' haa'
    obtain ⟨b, b', hb, hb', hcorr'⟩ := h.machines.heaps.objects x x' hxx'
    obtain rfl := Option.some.inj (hb.symm.trans hbefore)
    have hsame := c.leads.object? h.right.lasts ha'
    rw [hb', ho'] at hsame
    obtain rfl := Option.some.inj hsame
    cases hcorr' with
    | function =>
      cases hcorr with
      | function => exact (hfresh a x' _ haa' ho).2 hold

include hm₁

/-- What corresponded after the first script still does, together with what the second one adds. -/
theorem exists_united (e : Passage) : ∃ u : Pairing, u.terms = passing e (fun _ _ => True) ∧
    u.Heaps L.heap nS.heap ∧ (∀ x x', p.Pairs x x' → m₁.Keeps x → u.Pairs x x') ∧
    ∀ x x', q.Pairs x x' → c₂.heap.Reachable [c₂.script] x → c.heap.Reachable [c.script] x' →
      u.Pairs x x' := by
  obtain ⟨W, hshows⟩ := hm₁
  obtain ⟨_, _, hshowsL⟩ := InPhase.shows (p := .running) hL.onCourse.ready
  obtain ⟨_, _, hshowsR⟩ := InPhase.shows (p := .running) h.right.ready
  have hkept (x : Handle) (hx : m₁.Keeps x) :=
    (hL.kept_before hshows.sound (hshows.covers hshows.lists) hx).2.2
  have hnone (x : Handle) (j : Nat) : L.heap.object? x ≠ some (.upvalue (.onStack j)) :=
    hL.onCourse.ready.not_standsFor hL.alone.openUpvalues x j
  have hold : (p.keep m₁.Keeps fun _ => True).Heaps L.heap nS.heap :=
    (h.machines.heaps.alike hS.heap (.refl _)).keep Pairing.closed_reachable
      (fun _ _ _ _ _ _ => trivial) hshowsL.sound hshowsR.sound hkept fun _ _ => rfl
  have hnew : (q.keep (c₂.heap.Reachable [c₂.script]) (c.heap.Reachable [c.script])).Heaps L.heap
      nS.heap :=
    hs.heaps.keep Pairing.closed_reachable Pairing.closed_reachable hshowsL.sound hshowsR.sound
      (fun x hx => hL.kept_script hx) fun x' hx' => c.leads.object? h.right.lasts hx'
  have hcode (x : Handle) (o : Object) (hx : c₂.heap.Reachable [c₂.script] x)
      (ho : L.heap.object? x = some o) : o.IsCode := by
    obtain ⟨o', ho', hcode⟩ := c₂.leads x hx
    rw [← hL.kept_script hx, ho] at ho'
    exact Option.some.inj ho' ▸ hcode
  obtain ⟨u, hu, huheaps, hupairs⟩ :=
    (hold.under (t := passing e fun _ _ => True) False.elim hnone fun _ _ _ _ _ => trivial).union
      (hnew.under (t := passing e fun _ _ => True) False.elim hnone fun _ _ _ _ _ => trivial) rfl
      (fun x _ o hxx' ho => hcode x o hxx'.2.1 ho) fun x x' a a' f hxx' haa' hx =>
        hL.apart h hterms hS hs hfresh hxx'.1 hxx'.2.1 (hkept x hxx'.2.1) haa'.1 haa'.2.1
          haa'.2.2 hx
  exact ⟨u, hu, huheaps, fun x x' hxx' hx => (hupairs x x').mpr (.inl ⟨hxx', hx, trivial⟩),
    fun x x' hxx' hx hx' => (hupairs x x').mpr (.inr ⟨hxx', hx, hx'⟩)⟩

/-- When the first script is done, the second one starts abreast of what is left of the script of
both. -/
theorem exists_abreast_next {pre post : List UInt32}
    (hn : nS.Alone c first.right.closure pre.length)
    (hcode : c.function.chunk.code.toList = pre ++ w ++ post) :
    ∃ u : Pairing, Abreast (c₂.passage c links y first.right.closure pre.length) c₂ c u L
      { nS with clock := L.clock } := by
  obtain ⟨u, hu, hheaps, hold, hnew⟩ := exists_united hm₁ h hterms hS hL hs hfresh
    (c₂.passage c links y first.right.closure pre.length)
  have hright : { nS with clock := L.clock }.OnCourse c first.right.closure :=
    h.right.ticked L.clock
  refine ⟨u, hL.abreast hright ⟨hn.stack, hn.frames, hn.openUpvalues⟩
    (hs.joins hcode y first.right.closure) hheaps ?_ ?_ ?_ ?_ rfl ?_
    (hs.linked fun x x' hx hx' hxx' => hnew x x' hxx' hx hx')⟩
  · rw [hL.globals, hS.globals]
    exact h.machines.globals.carry fun x x' hx hxx' =>
      hold x x' hxx' (keeps_global (hS.globals ▸ hx))
  · rw [hL.initName, hS.initName]
    refine hold _ _ h.machines.initName ?_
    rw [← hS.initName]
    exact keeps_initName m₁
  · exact (hL.framesMax.trans hS.framesMax).trans h.machines.framesMax
  · exact (hL.sink.trans hS.sink).trans h.machines.sink
  · rw [hu]
    rfl

end Next

/-! ### Two pieces -/

variable {settings : Settings} {journal : Journal} {sink : Sink} {a b : String}
  {slices : List (Float × Nat)}

/-- A source that is not refused is loaded, or exhausts the arena, if a function may be active. -/
theorem Rests.load_cases {source : String} (hm : m.Rests) (hmax : 0 < m.framesMax)
    (hcompiles : ∀ es, (m.compile source).1 ≠ .errors es) :
    (∃ m', m.load source = (.unfinished, m')) ∨ ∃ m', m.load source = (.fault .arenaFull, m') := by
  have hleads := leads_load source hm
  generalize hload : m.load source = done at hleads
  obtain ⟨o, m'⟩ := done
  cases hleads with
  | unfinished => exact .inl ⟨m', rfl⟩
  | full => exact .inr ⟨m', rfl⟩
  | failed => exact absurd hload (hm.load_ne_failed hmax)
  | @refused es =>
    have hrun : m.interpretSlices source [] = (.refused es, m') := by rw [interpretSlices, hload]
    exact absurd (congrArg Prod.fst (compile_of_refused hrun)) (hcompiles _)
  | ok => exact absurd hload (load_ne_ok m m' source)

/-- The clock does not matter before the first slice. -/
theorem sameRuns_of_ticked {m n : Machine} (now : Float) {slices : List (Float × Nat)}
    (h : SameRuns (m.runSlices slices) ({ n with clock := now }.runSlices slices)) :
    SameRuns (m.runSlices slices) (n.runSlices slices) := by
  cases slices with
  | nil =>
    cases h with
    | unfinished same => exact .unfinished ⟨same.sink, same.globals⟩
  | cons => exact h

/-- After a script that ran to its end the script of the next piece goes on like the script of both
pieces from where the first one was done. -/
theorem Begins.sameRuns {L R L₂ : Machine} {c₁ c₂ c : Course} {y z y₂ : Handle} {q : Pairing}
    (hm : m.Rests) (hm₁ : m₁.Rests) (hq : q.Machines m m)
    (hL : m.Begins a c₁ y L) (hR : m.Begins (a ++ "\n" ++ b) c z R) (hL₂ : m₁.Begins b c₂ y₂ L₂)
    (hdone : L.runSlices slices = (.ok, m₁)) :
    (∃ n', R.runSlices slices = (.fault .arenaFull, n')) ∨
    ∃ front now used more back nS, slices = front ++ (now, used + more) :: back ∧
      R.runSlices (front ++ [(now, used)]) = (.unfinished, nS) ∧
      ∀ rest, SameRuns (L₂.runSlices rest) (nS.runSlices rest) := by
  have ⟨W, hshows⟩ := hm
  have ⟨W₁, hshows₁⟩ := hm₁
  have hopen (x : Handle) (j : Nat) : m.heap.object? x ≠ some (.upvalue (.onStack j)) := fun hx =>
    absurd (hshows.lists.eq_nil ▸ hshows.lists.all x j hx) List.not_mem_nil
  have hheaps : (q.under ⟨False, none, fun _ _ => True⟩).Heaps m.heap m.heap :=
    hq.heaps.under (t := ⟨False, none, fun _ _ => True⟩) False.elim hopen fun _ _ _ _ _ => trivial
  obtain ⟨w₁, w₂, N, hcode, ⟨p₁, links₁, hs₁, hpairs, hnew⟩, p₂, links₂, hs₂, hfresh⟩ :=
    Compile.exists_joined hshows.sound (hshows.covers hshows.lists) hshows.sound
      (hshows.covers hshows.lists) hshows₁.sound (hshows₁.covers hshows₁.lists) hL.compiled
      hL₂.compiled hR.compiled hheaps id fun _ _ => trivial
  have hcode₁ : c.function.chunk.code.toList =
      w₁ ++ (w₂ ++ FunctionKind.finalReturn .script) := by rw [hcode, List.append_assoc]
  obtain ⟨u, hterms, habreast⟩ := exists_abreast (N := N) hm hq hL hR hs₁ hcode₁ hpairs hnew
  have hjoins := hs₁.joins (show _ = [] ++ w₁ ++ _ from hcode₁) y z
  rcases habreast.runSlices hjoins slices with ⟨front, now, used, more, back, p, mS, nS, hslices,
    hcut, hleft, -, hS, hpterms, hend⟩ | hfull | ⟨hno, -⟩
  · obtain ⟨halone, halone'⟩ := hS.alone hjoins hend
    have hsettles : mS.Settles m₁ := Closing.settles (.null halone) (hleft.symm.trans hdone)
    have hlength : c₁.row.words.length = w₁.length := hs₁.aligned.length
    have hlength₂ : c₂.row.words.length = w₂.length := hs₂.aligned.length
    have hrow : c.row.words = w₁ ++ w₂ := List.append_cancel_right (c.code.symm.trans hcode)
    have hstart : nS.Alone c z w₁.length := by
      rw [← hlength]
      simpa [Course.passage] using halone'
    obtain ⟨u₂, hnext⟩ := exists_abreast_next hm₁ hS (hpterms.trans hterms) hsettles hL₂ hs₂ hfresh
      hstart hcode
    have hjoins₂ := hs₂.joins hcode y₂ z
    refine .inr ⟨front, now, used, more, back, nS, hslices, hcut, fun rest => ?_⟩
    refine sameRuns_of_ticked L₂.clock ?_
    refine hnext.sameRuns hjoins₂ ?_ rest
    rw [hrow, List.length_append, hlength₂]
    rfl
  · exact .inl hfull
  · rw [hdone] at hno
    exact absurd rfl hno

/-- Feeding a script in pieces comes to the same as running it whole. For every machine of a session
between two requests: where the first piece runs to its end, and neither the second piece nor both
with a newline in between are refused, there is a point of time within the slices of the first
piece from which on, whatever slices follow, the whole comes to what the second piece comes to: to
its end, to the same error or to no end, having written the same text in total and with the same
globals. -/
theorem pieces_run_as_whole (hm : Reached settings journal sink .resting m)
    (hdone : m.interpretSlices a slices = (.ok, m₁))
    (hb : ∀ es, (m₁.compile b).1 ≠ .errors es)
    (hab : ∀ es, (m.compile (a ++ "\n" ++ b)).1 ≠ .errors es) :
    ∃ front now used more back, slices = front ++ (now, used + more) :: back ∧
      ∀ rest, SameRuns (m₁.interpretSlices b rest)
        (m.interpretSlices (a ++ "\n" ++ b) (front ++ (now, used) :: rest)) := by
  have hrests : m.Rests := hm.inPhase
  obtain ⟨L, hloadL, hrunL⟩ := exists_loaded hdone
  obtain ⟨c₁, y, hL⟩ := hrests.begins hm.standing.1 hloadL
  have hreached : Reached settings journal sink .resting m₁ :=
    (hm.loaded hloadL rfl).runSlices hrunL rfl
  have hrests₁ : m₁.Rests := hreached.inPhase
  have hbounded : L.Bounded := .load hrests hloadL
  have hmax : 0 < m.framesMax := by
    have hcount := hbounded.count
    rw [hL.alone.frames, hL.framesMax] at hcount
    exact hcount
  have hmax₁ : 0 < m₁.framesMax := by
    rw [hbounded.runSlices hL.onCourse.ready hrunL, hL.framesMax]
    exact hmax
  obtain ⟨others, now₀, fuel₀, rfl⟩ : ∃ others now₀ fuel₀, slices = others ++ [(now₀, fuel₀)] := by
    rcases List.eq_nil_or_concat slices with rfl | ⟨others, ⟨now₀, fuel₀⟩, rfl⟩
    · cases (Prod.mk.inj hrunL).1
    · exact ⟨others, now₀, fuel₀, List.concat_eq_append⟩
  rcases hrests.load_cases hmax hab with ⟨R, hloadR⟩ | ⟨R, hloadR⟩
  · obtain ⟨c, z, hR⟩ := hrests.begins hm.standing.1 hloadR
    rcases hrests₁.load_cases hmax₁ hb with ⟨L₂, hloadL₂⟩ | ⟨L₂, hloadL₂⟩
    · obtain ⟨c₂, y₂, hL₂⟩ := hrests₁.begins hreached.standing.1 hloadL₂
      obtain ⟨q, -, hq⟩ := hm.exists_self
      rcases Begins.sameRuns hrests hrests₁ hq hL hR hL₂ hrunL with ⟨n', hfull⟩ |
        ⟨front, now, used, more, back, nS, hslices, hcut, hsame⟩
      · refine ⟨others, now₀, fuel₀, 0, [], rfl, fun rest => ?_⟩
        have hwhole : R.runSlices ((others ++ [(now₀, fuel₀)]) ++ rest) = (.fault .arenaFull, n') :=
          (runSlices_append_of_end (by rw [hfull]; exact nofun)).trans hfull
        rw [List.append_assoc, List.singleton_append] at hwhole
        rw [interpretSlices_of_loaded _ hloadR, hwhole]
        exact .fullRight
      · refine ⟨front, now, used, more, back, hslices, fun rest => ?_⟩
        have hsplit : front ++ (now, used) :: rest = front ++ [(now, used)] ++ rest := by
          rw [List.append_assoc, List.singleton_append]
        rw [interpretSlices_of_loaded _ hloadL₂, interpretSlices_of_loaded _ hloadR, hsplit,
          runSlices_append hcut]
        exact hsame rest
    · refine ⟨others, now₀, fuel₀, 0, [], rfl, fun rest => ?_⟩
      rw [interpretSlices_of_full _ hloadL₂]
      exact .fullLeft
  · refine ⟨others, now₀, fuel₀, 0, [], rfl, fun rest => ?_⟩
    rw [interpretSlices_of_full _ hloadR]
    exact .fullRight

/-- A function of the first piece is called by the second one, which prints what it gives and then
fails: so does the script of both pieces. -/
theorem failing_piece_fails_in_whole : ∃ m m₁,
    create Settings.standard Journal.off Sink.unlimited = .ok m ∧
    m.interpretSlices "let x = \"p\"; def f(y) \x7b return x + y; \x7d" [(0, 40)] = (.ok, m₁) ∧
    (m₁.interpretSlices "print f(\"q\"); f(z);" [(0, 40)]).1.error? =
      some (.undefinedVariable "z") ∧
    (m₁.interpretSlices "print f(\"q\"); f(z);" [(0, 40)]).2.sink.text = "pq\n" ∧
    ∃ used more, 40 = used + more ∧
      SameRuns (m₁.interpretSlices "print f(\"q\"); f(z);" [(0, 40)])
        (m.interpretSlices ("let x = \"p\"; def f(y) \x7b return x + y; \x7d" ++ "\n" ++
          "print f(\"q\"); f(z);") [(0, used), (0, 40)]) := by
  obtain ⟨m, hm, hg⟩ := exists_created (g := fun m =>
    let done := m.interpretSlices "let x = \"p\"; def f(y) \x7b return x + y; \x7d" [(0, 40)]
    let done' := done.2.interpretSlices "print f(\"q\"); f(z);" [(0, 40)]
    done.1.isOk && done'.1.error? = some (.undefinedVariable "z") && done'.2.sink.text = "pq\n" &&
      (done.2.compile "print f(\"q\"); f(z);").1.function?.isSome &&
      (m.compile ("let x = \"p\"; def f(y) \x7b return x + y; \x7d" ++ "\n" ++
        "print f(\"q\"); f(z);")).1.function?.isSome) (by decide +kernel)
  simp only [Bool.and_eq_true, decide_eq_true_eq] at hg
  obtain ⟨⟨⟨⟨hok, herror⟩, htext⟩, hb⟩, hab⟩ := hg
  generalize hdone : m.interpretSlices "let x = \"p\"; def f(y) \x7b return x + y; \x7d"
    [(0, 40)] = done at hok herror htext hb
  obtain ⟨o, m₁⟩ := done
  cases o with
  | ok =>
    obtain ⟨front, now, used, more, back, hslices, hsame⟩ := pieces_run_as_whole (.created hm) hdone
      (fun es hes => by rw [hes] at hb; cases hb) fun es hes => by rw [hes] at hab; cases hab
    refine ⟨m, m₁, hm, hdone, herror, htext, used, more, ?_⟩
    cases front with
    | nil =>
      obtain ⟨hslice, -⟩ := List.cons.inj hslices
      obtain ⟨rfl, hfuel⟩ := Prod.mk.inj hslice
      exact ⟨hfuel, hsame [(0, 40)]⟩
    | cons slice front =>
      obtain ⟨-, hrest⟩ := List.cons.inj hslices
      cases front <;> cases hrest
  | _ => cases hok

end Machine

end ScriptMachine
