import ScriptMachine.Proofs.Meaning.Mirroring
import ScriptMachine.Proofs.Parallel.Joined
import ScriptMachine.Proofs.Parallel.Sessions
import ScriptMachine.Proofs.Session.Courses

/-!
# Two machines side by side in a passage

One script may have all of its code, but for the final return, in common with a passage of another
one. Machines that run the two and correspond are abreast: each step that they take in the passage
leaves them so. Up to the end of the passage they come to the same, and there both scripts are
alone, at the places where the passage ends.
-/

namespace ScriptMachine

/-! ### Runs that come to the same -/

/-- The same was written, and the globals are the same up to which handle stands for which, and up
to the lines that are recorded for code. -/
structure SameGlobals (m n : Machine) : Prop where
  sink : m.sink = n.sink
  globals : ∃ p : Pairing, p.Heaps m.heap n.heap ∧ p.Tables m.globals n.globals

/-- Two runs came to the same: to their ends, to the same error of the script or to no end, having
written the same and with the same globals, or one of them exhausted its arena. -/
inductive SameRuns : Outcome × Machine → Outcome × Machine → Prop
  | ok {m n : Machine} (same : SameGlobals m n) : SameRuns (.ok, m) (.ok, n)
  | failed {f g : Failure} {m n : Machine} (error : f.error = g.error) (same : SameGlobals m n) :
    SameRuns (.failed f, m) (.failed g, n)
  | unfinished {m n : Machine} (same : SameGlobals m n) : SameRuns (.unfinished, m) (.unfinished, n)
  | fullLeft {m : Machine} {r : Outcome × Machine} : SameRuns (.fault .arenaFull, m) r
  | fullRight {n : Machine} {r : Outcome × Machine} : SameRuns r (.fault .arenaFull, n)

namespace Pairing

variable {p : Pairing} {m n : Machine} {e : Passage}

/-- Corresponding machines have the same globals. -/
theorem Machines.sameGlobals (hm : p.Machines m n) : SameGlobals m n :=
  ⟨hm.sink, p, hm.heaps, hm.globals⟩

/-- The same error ends corresponding runs alike. -/
theorem Machines.settle_error {W W' : World} {O O' : Outline} (hm : p.Machines m n)
    (hshows : m.Shows W O) (hshows' : n.Shows W' O') (error : RuntimeError) : ∃ f g m' n',
      m.settle (.error error) = (.failed f, m') ∧ n.settle (.error error) = (.failed g, n') ∧
      f.error = g.error ∧ SameGlobals m' n' := by
  obtain ⟨f, h, m₁, hfailure, hf, halike, hclose, -⟩ := Exec.failure_closes error hshows
  obtain ⟨g, h', n₁, hfailure', hg, halike', hclose', -⟩ := Exec.failure_closes error hshows'
  have hclosed : Exec.Agree p (Exec.Still p) (Exec.closeUpvalues 0 { m with heap := h })
      (Exec.closeUpvalues 0 { n with heap := h' }) :=
    Exec.agree_closeUpvalues (hm.alike halike halike')
  rw [hclose, hclose'] at hclosed
  refine ⟨f, g, _, _, by rw [Machine.settle, hfailure], by rw [Machine.settle, hfailure'],
    hf.trans hg.symm, ?_⟩
  cases hclosed with
  | @ok q _ _ _ _ _ machines _ => exact ⟨machines.sink, q, machines.heaps, machines.globals⟩

end Pairing

/-! ### Side by side -/

/-- A passage that is all of the one script in front of its final return, and stands somewhere in
the other one. -/
structure Passage.Joins (e : Passage) (c c' : Course) : Prop where
  left : e.left.chunk = c.function.chunk
  start : e.left.start = 0
  right : e.right.chunk = c'.function.chunk
  shares : ∀ d < c.row.words.length, c.function.Starts c.heap d →
    ∃ i j, e.Shares c.heap d (e.right.start + d) i j

namespace Machine

variable {m m' : Machine} {c : Course} {y : Handle} {f : Frame}

/-- The script alone is active, in front of its final return. -/
structure AtEnd (m : Machine) (c : Course) : Prop where
  size : m.frames.size = 1
  ip : ∀ g, m.frames[0]? = some g → g.ip = c.row.words.length

namespace OnCourse

/-- The script is where an instruction starts. -/
theorem starts (hm : m.OnCourse c y) (hsize : m.frames.size = 1) (hback : m.frames.back? = some f) :
    c.function.Starts c.heap f.ip := by
  obtain ⟨g, hg, hclosure, -⟩ := hm.lowest
  rw [Array.back?_eq_getElem?, hsize] at hback
  obtain rfl := Option.some.inj (hback.symm.trans hg)
  obtain ⟨W, O, hshows, hpoised⟩ := hm.ready
  cases hpoised with
  | @intro a others below A outer base lands =>
    have hback' := hshows.back_frames rfl
    rw [Array.back?_eq_getElem?, hsize] at hback'
    obtain rfl : a.frame = f := Option.some.inj (hback'.symm.trans hg)
    have hruns := hshows.runs a List.mem_cons_self
    have hobject := hruns.closure
    rw [hclosure] at hobject
    have hthis := Object.closure.inj (Option.some.inj (hm.object.symm.trans hobject))
    have hfunction := hruns.function
    rw [← hthis] at hfunction
    have hprototype := Object.function.inj
      (Option.some.inj ((c.function_of_lasts hm.lasts).symm.trans hfunction))
    refine (c.sameConstants hm.lasts).symm.starts ?_
    rw [hprototype]
    exact ((hruns.laidOut hshows.fits).lands lands).1.1

end OnCourse

end Machine

/-- Two machines run the same passage of different scripts, and correspond. -/
structure Abreast (e : Passage) (c c' : Course) (p : Pairing) (m n : Machine) : Prop where
  passage : p.terms.passage = some e
  machines : p.Machines m n
  left : m.OnCourse c e.left.closure
  right : n.OnCourse c' e.right.closure
  within : ∀ g, m.frames[0]? = some g → g.ip ≤ c.row.words.length

namespace Abreast

variable {e : Passage} {c c' : Course} {p : Pairing} {m n : Machine} {f g : Frame}

/-- The scripts are at the same place of the passage. -/
theorem lowest (h : Abreast e c c' p m n) (hf : m.frames[0]? = some f)
    (hg : n.frames[0]? = some g) :
    e.left.Plays f ∧ e.right.Plays g ∧ f.ip + e.right.start = g.ip + e.left.start := by
  cases h.machines.frames.rel hf hg with
  | scripts passage _ left right place =>
    obtain rfl := Option.some.inj (passage.symm.trans h.passage)
    exact ⟨left, right, place⟩
  | paired _ _ _ above =>
    obtain ⟨f', hf', hplays⟩ := (h.machines.starts e h.passage).lowest
    obtain rfl := Option.some.inj (hf.symm.trans hf')
    rw [hplays.base] at above
    rcases above with hnone | hpos
    · cases hnone.symm.trans h.passage
    · exact absurd hpos (Nat.lt_irrefl 0)

/-- Up to the end of the passage both have the same instruction next. -/
theorem shares (h : Abreast e c c' p m n) (hj : e.Joins c c') (hgo : ¬ m.AtEnd c)
    (hsize : m.frames.size = 1) (hf : m.frames.back? = some f) (hg : n.frames.back? = some g) :
    ∃ i j, e.Shares m.heap f.ip g.ip i j := by
  have hstarts := h.left.starts hsize hf
  rw [Array.back?_eq_getElem?, hsize] at hf
  rw [Array.back?_eq_getElem?, ← h.machines.frames.size, hsize] at hg
  obtain ⟨-, -, hplace⟩ := h.lowest hf hg
  have hlt : f.ip < c.row.words.length := by
    refine Nat.lt_of_le_of_ne (h.within f hf) fun heq => hgo ⟨hsize, fun g' hg' => ?_⟩
    obtain rfl := Option.some.inj (hf.symm.trans hg')
    exact heq
  obtain ⟨i, j, hshares⟩ := hj.shares f.ip hlt hstarts
  rw [hj.start, Nat.add_zero, Nat.add_comm] at hplace
  refine ⟨i, j, hplace ▸ { hshares with captures := fun k x a hi hx ha => ?_ }⟩
  refine hshares.captures k x a hi hx ?_
  rw [hj.left] at hx
  obtain ⟨v, hv, hat⟩ := Option.bind_eq_some_iff.mp hx
  exact (c.sameConstants h.left.lasts v (Array.mem_of_getElem? hv) x hat).symm.trans ha

/-- One step in the passage. -/
theorem step (h : Abreast e c c' p m n) (hj : e.Joins c c') (hgo : ¬ m.AtEnd c) :
    Exec.Agree p (fun q a b m' n' => a = .running ∧ b = .running ∧ Abreast e c c' q m' n')
      (Exec.step m) (Exec.step n) := by
  have hno (hsize : m.frames.size = 1) : m.next? ≠ some .return_ := by
    obtain ⟨f, hf⟩ := h.left.ready.exists_back
    obtain ⟨g, hg⟩ := h.right.ready.exists_back
    obtain ⟨i, j, hshares⟩ := h.shares hj hgo hsize hf hg
    have hplays := h.lowest (f := f) (g := g) (by rwa [Array.back?_eq_getElem?, hsize] at hf)
      (by rwa [Array.back?_eq_getElem?, ← h.machines.frames.size, hsize] at hg)
    rw [Machine.next?, hf, Option.bind_some, hplays.1.chunk, hshares.left]
    exact fun heq => hshares.stays (Option.some.inj heq)
  have hagree := Exec.agree_step h.machines (fun f i hf hi hpos => ?_)
    fun e' f g he hsize hf hg => by
      obtain rfl := Option.some.inj (h.passage.symm.trans he)
      exact h.shares hj hgo hsize hf hg
  · generalize hx : Exec.step m = r at hagree
    generalize hy : Exec.step n = r' at hagree
    cases hagree with
    | @ok q a b m' n' terms machines answers =>
      obtain rfl : a = b := answers
      cases a with
      | finished =>
        obtain ⟨hi, hle, -⟩ := Exec.return_of_finished hx
        obtain ⟨f, hf⟩ := h.left.ready.exists_back
        have hpos := Array.size_pos_of_mem (Array.mem_of_back? hf)
        exact absurd hi (hno (by omega))
      | running =>
        refine .ok terms machines ⟨rfl, rfl,
          { passage := terms ▸ h.passage
            machines := machines
            left := h.left.step hx
            right := h.right.step hy
            within := h.left.within hx hno h.within fun hsize g hg heq =>
              hgo ⟨hsize, fun g' hg' => ?_⟩ }⟩
        obtain rfl := Option.some.inj (hg.symm.trans hg')
        exact heq
    | error terms machines => exact .error terms machines
    | faultLeft => exact .faultLeft
    | faultRight => exact .faultRight
  · obtain ⟨f', hf', -, hdeep⟩ := h.left.ready.depth (i := i) (by rw [Machine.next?, hf]; exact hi)
    exact .inr (by have := hdeep hpos; omega)

end Abreast

/-! ### Slices -/

namespace Machine

variable {m mS : Machine} {now : Float}

/-- A slice may end in the midst of another one that has its time. -/
theorem runSlices_add {k more : Nat} {back : List (Float × Nat)}
    (hrun : Exec.run k { m with clock := now } = .ok .running mS) :
    m.runSlices ((now, k + more) :: back) = mS.runSlices ((mS.clock, more) :: back) := by
  rw [runSlices, resume, Exec.run_add hrun]
  rfl

end Machine

namespace Abreast

variable {e : Passage} {c c' : Course} {p : Pairing} {m n : Machine}

/-- The clocks may tell another time. -/
theorem ticked (h : Abreast e c c' p m n) (now : Float) :
    Abreast e c c' p { m with clock := now } { n with clock := now } where
  passage := h.passage
  machines := { h.machines with clock := rfl }
  left := h.left.ticked now
  right := h.right.ticked now
  within := h.within

/-- The machines run alike up to the end of the passage, or as far as the run goes. -/
theorem run (h : Abreast e c c' p m n) (hj : e.Joins c c') (fuel : Nat) :
    (∃ k more q mS nS, fuel = k + more ∧ Exec.run k m = .ok .running mS ∧
      Exec.run k n = .ok .running nS ∧ Abreast e c c' q mS nS ∧ q.terms = p.terms ∧ mS.AtEnd c) ∨
    Exec.Agree p (fun q a b m' n' => a = .running ∧ b = .running ∧ Abreast e c c' q m' n')
      (Exec.run fuel m) (Exec.run fuel n) := by
  induction fuel generalizing p m n with
  | zero => exact .inr (Exec.agree_pure h.machines ⟨rfl, rfl, h⟩)
  | succ fuel ih =>
    by_cases hgo : m.AtEnd c
    · exact .inl ⟨0, fuel + 1, p, m, n, (Nat.zero_add _).symm, rfl, rfl, h, rfl, hgo⟩
    have hstep := h.step hj hgo
    generalize hx : Exec.step m = r at hstep
    generalize hy : Exec.step n = r' at hstep
    cases hstep with
    | @ok q a b m₁ n₁ terms machines answers =>
      obtain ⟨rfl, rfl, h₁⟩ := answers
      have hrun (k : Nat) : Exec.run (k + 1) m = Exec.run k m₁ := by
        rw [Exec.run, Exec.bind_eq hx]
      have hrun' (k : Nat) : Exec.run (k + 1) n = Exec.run k n₁ := by
        rw [Exec.run, Exec.bind_eq hy]
      rcases ih h₁ with ⟨k, more, q', mS, nS, rfl, hk, hk', hS, hterms, hend⟩ | hagree
      · exact .inl ⟨k + 1, more, q', mS, nS, by omega, (hrun k).trans hk, (hrun' k).trans hk', hS,
          hterms.trans terms, hend⟩
      · rw [hrun, hrun']
        exact .inr (hagree.of_terms terms)
    | error terms machines =>
      rw [Exec.run, Exec.bind_error hx, Exec.bind_error hy]
      exact .inr (.error terms machines)
    | faultLeft =>
      rw [Exec.run, Exec.bind_error hx]
      exact .inr .faultLeft
    | faultRight =>
      rw [Exec.run, Exec.bind_error hy]
      exact .inr .faultRight

/-- So they do in slices. Up to the end of the passage no run comes to its end. -/
theorem runSlices (h : Abreast e c c' p m n) (hj : e.Joins c c') (slices : List (Float × Nat)) :
    (∃ front now used more back q mS nS, slices = front ++ (now, used + more) :: back ∧
      n.runSlices (front ++ [(now, used)]) = (.unfinished, nS) ∧
      m.runSlices slices = mS.runSlices ((mS.clock, more) :: back) ∧
      n.runSlices slices = nS.runSlices ((nS.clock, more) :: back) ∧
      Abreast e c c' q mS nS ∧ q.terms = p.terms ∧ mS.AtEnd c) ∨
    (∃ n', n.runSlices slices = (.fault .arenaFull, n')) ∨
    (m.runSlices slices).1 ≠ .ok ∧ SameRuns (m.runSlices slices) (n.runSlices slices) := by
  induction slices generalizing p m n with
  | nil => exact .inr (.inr ⟨(by intro heq; cases heq), .unfinished h.machines.sameGlobals⟩)
  | cons slice rest ih =>
    obtain ⟨now, fuel⟩ := slice
    have hticked := h.ticked now
    have hdoes := Exec.does_run fuel hticked.left.ready
    have hdoes' := Exec.does_run fuel hticked.right.ready
    rcases hticked.run hj fuel with ⟨k, more, q, mS, nS, rfl, hk, hk', hS, hterms, hend⟩ | hagree
    · refine .inl ⟨[], now, k, more, rest, q, mS, nS, rfl, ?_, Machine.runSlices_add hk,
        Machine.runSlices_add hk', hS, hterms, hend⟩
      rw [List.nil_append, Machine.runSlices, Machine.resume, hk']
      rfl
    generalize hx : Exec.run fuel { m with clock := now } = r at hagree hdoes
    generalize hy : Exec.run fuel { n with clock := now } = r' at hagree hdoes'
    cases hagree with
    | @ok q a b m₁ n₁ terms machines answers =>
      obtain ⟨rfl, rfl, h₁⟩ := answers
      have hrun (back : List (Float × Nat)) :
          m.runSlices ((now, fuel) :: back) = m₁.runSlices back := by
        rw [Machine.runSlices, Machine.resume, hx]
      have hrun' (back : List (Float × Nat)) :
          n.runSlices ((now, fuel) :: back) = n₁.runSlices back := by
        rw [Machine.runSlices, Machine.resume, hy]
      rw [hrun, hrun']
      rcases ih h₁ with ⟨front, now', used, more, back, q', mS, nS, rfl, hcut, hleft, hright, hS,
        hterms, hend⟩ | hsame
      · exact .inl ⟨(now, fuel) :: front, now', used, more, back, q', mS, nS, rfl,
          (hrun' _).trans hcut, hleft, hright, hS, hterms.trans terms, hend⟩
      · exact .inr hsame
    | @error q error m₁ n₁ terms machines =>
      obtain ⟨W, O, hshows⟩ := hdoes
      obtain ⟨W', O', hshows'⟩ := hdoes'
      obtain ⟨f, f', m₂, n₂, hsettled, hsettled', herror, hsame⟩ :=
        machines.settle_error hshows hshows' error
      rw [Machine.runSlices, Machine.runSlices, Machine.resume, Machine.resume, hx, hy]
      dsimp only
      rw [hsettled, hsettled']
      exact .inr (.inr ⟨(by intro heq; cases heq), .failed herror hsame⟩)
    | faultLeft =>
      obtain rfl := hdoes
      rw [Machine.runSlices, Machine.resume, hx]
      exact .inr (.inr ⟨(by intro heq; cases heq), .fullLeft⟩)
    | @faultRight _ n₁ _ =>
      obtain rfl := hdoes'
      refine .inr (.inl ⟨n₁, ?_⟩)
      rw [Machine.runSlices, Machine.resume, hy]
      rfl

end Abreast

/-! ### Where a passage ends -/

namespace Abreast

variable {e : Passage} {c c' : Course} {p : Pairing} {m n : Machine}

/-- At the end of the passage both scripts are alone. -/
theorem alone (h : Abreast e c c' p m n) (hj : e.Joins c c') (hend : m.AtEnd c) :
    m.Alone c e.left.closure c.row.words.length ∧
      n.Alone c' e.right.closure (e.right.start + c.row.words.length) := by
  have hsize := hend.size
  have hsize' : n.frames.size = 1 := h.machines.frames.size.symm.trans hsize
  have hstack := h.left.stack_end hsize hend.ip
  have hone : n.stack.size = 1 := by
    rw [← h.machines.stack.size, hstack]
    rfl
  have hstack' : n.stack = #[.ofHandle e.right.closure] := by
    refine Array.ext_getElem? fun j => ?_
    rcases j with _ | j
    · exact h.right.callee
    · rw [Array.getElem?_eq_none (by omega), Array.getElem?_eq_none (by simp)]
  obtain ⟨f, -, -, -, hframes, -, -⟩ := h.left.works hsize
  obtain ⟨g, -, -, -, hframes', -, -⟩ := h.right.works hsize'
  obtain ⟨hleft, hright, hplace⟩ := h.lowest (f := f) (g := g) (by rw [hframes]; rfl)
    (by rw [hframes']; rfl)
  have hip := hend.ip f (by rw [hframes]; rfl)
  -- an upvalue that is open stands for a slot above the script itself, and there is none
  have hopen : m.openUpvalues = [] := by
    refine List.eq_nil_iff_forall_not_mem.mpr fun u hu => ?_
    obtain ⟨j, hj, hstands⟩ := h.left.ready.standsFor hu
    obtain ⟨v, -, huv⟩ := exists_of_mem_left h.machines.openUpvalues hu
    obtain ⟨o, o', ho, -, hcorr⟩ := h.machines.heaps.objects u v huv
    obtain rfl := Option.some.inj (ho.symm.trans hstands)
    cases hcorr with
    | onStack above =>
      rw [hstack] at hj
      rcases above with hnone | hpos
      · cases hnone.symm.trans h.passage
      · exact absurd hpos (Nat.not_lt.mpr (Nat.le_of_lt_succ hj))
  have hopen' : n.openUpvalues = [] := by
    have hpairs := h.machines.openUpvalues
    rw [hopen] at hpairs
    exact List.forall₂_nil_left_iff.mp hpairs
  refine ⟨⟨hstack, ?_, hopen⟩, ⟨hstack', ?_, hopen'⟩⟩
  · rw [hframes, ← hip, ← hj.left, ← hleft.chunk, ← hleft.closure, ← hleft.base]
  · rw [hj.start, hip] at hplace
    rw [hframes', ← hj.right, ← hright.chunk, ← hright.closure, ← hright.base]
    rw [show e.right.start + c.row.words.length = g.ip by omega]

end Abreast

/-! ### Where a passage starts -/

namespace Pairing

variable {p : Pairing} {m n : Machine} {c c' : Course} {e : Passage} {ip ip' : Nat}

/-- Machines where different scripts are alone correspond if their heaps and globals do. -/
theorem Heaps.machines (hp : p.Heaps m.heap n.heap) (hglobals : p.Tables m.globals n.globals)
    (hinit : p.Pairs m.initName n.initName) (hmax : m.framesMax = n.framesMax)
    (hsink : m.sink = n.sink) (hclock : m.clock = n.clock) (hm : m.OnCourse c e.left.closure)
    (hn : n.OnCourse c' e.right.closure) (ha : m.Alone c e.left.closure ip)
    (hb : n.Alone c' e.right.closure ip') (he : p.terms.passage = some e) (hj : e.Joins c c')
    (hplace : e.right.start + ip = ip') (hlinked : p.Linked e) : p.Machines m n := by
  have hruns {m : Machine} {c : Course} {y : Handle} {ip : Nat} (hm : m.OnCourse c y)
      (ha : m.Alone c y ip) (f : Frame) (hf : f ∈ m.frames) : m.heap.Runs f := by
    rw [ha.frames, Array.mem_singleton] at hf
    subst hf
    exact ⟨_, _, hm.object, c.function_of_lasts hm.lasts, rfl⟩
  have hstarts {m : Machine} {c : Course} {s : ScriptRun} {ip : Nat} (hm : m.OnCourse c s.closure)
      (ha : m.Alone c s.closure ip) (hchunk : s.chunk = c.function.chunk) :
      s.Starts m.heap m.frames := by
    obtain ⟨W, O, hshows⟩ := Machine.InPhase.shows (p := .running) hm.ready
    have hlowest : m.frames[0]? = some ⟨s.closure, c.function.chunk, ip, 0⟩ := by
      rw [ha.frames]
      rfl
    refine ⟨⟨_, hlowest, rfl, hchunk.symm, rfl⟩, fun x hx => ?_⟩
    refine hshows.covers hshows.lists x (hx.mono fun z hz => ?_)
    obtain rfl := List.mem_singleton.mp hz
    exact Machine.mem_roots.mpr (.inr (.inl ⟨_, Array.mem_of_getElem? hlowest, rfl⟩))
  exact
    { heaps := hp
      globals := hglobals
      stack := by
        rw [ha.stack, hb.stack]
        exact alongside_empty.push (.scripts he rfl rfl rfl)
      frames := by
        rw [ha.frames, hb.frames]
        refine alongside_empty.push (.scripts he rfl ⟨rfl, hj.left.symm, rfl⟩
          ⟨rfl, hj.right.symm, rfl⟩ ?_ hlinked)
        rw [hj.start]
        show ip + e.right.start = ip' + 0
        omega
      runs := hruns hm ha
      runs' := hruns hn hb
      starts := fun e' he' => by
        obtain rfl := Option.some.inj (he.symm.trans he')
        exact hstarts hm ha hj.left
      starts' := fun e' he' => by
        obtain rfl := Option.some.inj (he.symm.trans he')
        exact hstarts hn hb hj.right
      openUpvalues := by
        rw [ha.openUpvalues, hb.openUpvalues]
        exact .nil
      initName := hinit
      framesMax := hmax
      sink := hsink
      clock := hclock }

end Pairing

end ScriptMachine
