import ScriptMachine.Proofs.Scoping.Positions
import ScriptMachine.Proofs.Session.Bodies
import ScriptMachine.Proofs.Session.Entering

/-!
# Active functions from step to step

Every active function runs the code of a body and is somewhere in its row of stretches, with the
stack as high as it has to be there; a function that waits is where a stretch starts, and goes on
with the value of its call on the stack. In the midst of a stretch the machine has on top of the
stack what the last atom made: the receiver of an initializer, or the closure that is to become a
method.

A step leads the innermost function from one place of its row of stretches to the next one, enters
another function or returns. It keeps the slots of all callees: nothing assigns slot zero of a
function, neither as a local nor as a captured variable. So an initializer returns its receiver.
-/

namespace ScriptMachine

open Compile (FunctionKind)

/-- A body and the row of stretches that its code is. -/
structure Part where
  body : Body
  row : Row

namespace Machine

variable {m m' : Machine} {g : Frame} {p q : Part} {f : Prototype} {y : Handle} {new : List Handle}
  {done : Atoms} {rest : List Frame} {ps : List Part} {callee : Nat}

/-! ### Functions at work -/

/-- The closure `y` of the function `f` runs a part. -/
structure Hosts (m : Machine) (y : Handle) (p : Part) (f : Prototype) : Prop where
  closure : ∃ c, m.heap.object? y = some (.closure c) ∧ m.Serves c p.body f
  words : p.row.words = f.chunk.code.toList
  height : p.row.height 0 = f.arity.toNat + 1
  laid : Row.Laid p.body (p.row.Mark 0) 0 p.row

/-- Where a closure is of some body, it runs a part with the body. -/
theorem exists_hosts {c : Closure} {B : Body} (hc : m.heap.object? y = some (.closure c))
    (hs : m.Serves c B f) : ∃ p, p.body = B ∧ m.Hosts y p f := by
  obtain ⟨row, hwords, hheight, hlaid⟩ := hs.embodies.flows
  exact ⟨⟨B, row⟩, rfl, ⟨c, hc, hs⟩, hwords, hheight, hlaid⟩

/-- A closure that is retained runs the same part. -/
theorem Hosts.carry (h : m.Hosts y p f) (hr : m.Retains new m') (hframes : m.Clears m')
    (hnew : y ∉ new) (hy : ∃ c, m'.heap.object? y = some (.closure c)) : m'.Hosts y p f := by
  obtain ⟨c, hc, hs⟩ := h.closure
  obtain ⟨c', hc'⟩ := hy
  obtain rfl : c = c' :=
    Object.closure.inj (Option.some.inj (hc.symm.trans (hr.heap.object y _ hc' rfl hnew)))
  exact { h with
    closure := ⟨c, hc', hs.carry hframes fun z hz => hr.heap.stored y _ z hc' rfl hnew hz⟩ }

/-- An active function runs a part. -/
def Plays (m : Machine) (g : Frame) (p : Part) : Prop :=
  ∃ f, m.Hosts g.closure p f ∧ g.chunk = f.chunk

/-- The functions that wait for the one whose callee is in the slot `callee`, the innermost
first. -/
inductive Waits (m : Machine) : List Frame → List Part → Nat → Prop
  | nil : Waits m [] [] 0
  | cons {g : Frame} {rest : List Frame} {p : Part} {ps : List Part} {callee k : Nat}
      (plays : m.Plays g p) (mark : p.row.Mark 0 g.ip k) (height : g.base + k = callee + 1)
      (below : g.base < callee) (outer : Waits m rest ps g.base) :
      Waits m (g :: rest) (p :: ps) callee

/-- Their callees are in lower slots. -/
theorem Waits.base_lt (h : m.Waits rest ps callee) : ∀ g ∈ rest, g.base < callee := by
  induction h with
  | nil => exact fun g hg => by cases hg
  | cons _ _ _ below _ ih =>
    exact List.forall_mem_cons.mpr ⟨below, fun g hg => Nat.lt_trans (ih g hg) below⟩

/-- What the functions play may be said of another machine. -/
theorem Waits.imp (h : m.Waits rest ps callee)
    (himp : ∀ g ∈ rest, ∀ p, m.Plays g p → m'.Plays g p) : m'.Waits rest ps callee := by
  induction h with
  | nil => exact .nil
  | cons plays mark height below _ ih =>
    rw [List.forall_mem_cons] at himp
    exact .cons (himp.1 _ plays) mark height below (ih himp.2)

/-- What the atoms that are behind left on top of the stack: a receiver to return, or the closure
of their last words. -/
structure Made (m : Machine) (g : Frame) (B : Body) (done : Atoms) : Prop where
  receiver : done = [[(Instr.getLocal 0).encode]] → m.stack.back? = m.stack[g.base]?
  closure : ∀ before ws scope kind f scope', done = before ++ [ws] →
    Function.Codes B scope kind f ws scope' → scope.Rooted → ProperNames f.tokens →
    ∃ y c B' f', m.stack.back? = some (.ofHandle y) ∧ m.heap.object? y = some (.closure c) ∧
      m.Serves c B' f' ∧ B'.kind = kind

/-- Before the first instruction nothing was made. -/
theorem made_nil {B : Body} : m.Made g B [] :=
  ⟨fun h => by simp at h, fun _ _ _ _ _ _ h => by simp at h⟩

/-- The innermost function is `g` and runs the part `p`, behind the atoms `done` of a stretch and
with `k` slots; the functions of `rest` wait and run the parts `ps`. -/
structure Works (m : Machine) (g : Frame) (rest : List Frame) (p : Part) (ps : List Part) (k : Nat)
    (done : Atoms) : Prop where
  frames : m.frames.toList.reverse = g :: rest
  plays : m.Plays g p
  stands : p.row.Stands g.ip k done
  height : m.stack.size = g.base + k
  low : g.base < m.stack.size
  made : m.Made g p.body done
  outer : m.Waits rest ps g.base

/-- The active functions run the parts, the innermost first, which is behind the atoms of a
stretch. -/
inductive Sits (m : Machine) : Atoms → List Part → Prop
  | intro {g : Frame} {rest : List Frame} {p : Part} {ps : List Part} {k : Nat} {done : Atoms}
      (works : m.Works g rest p ps k done) : Sits m done (p :: ps)

namespace Works

variable {k : Nat}

/-- The frame of the innermost function. -/
theorem back (hw : m.Works g rest p ps k done) : m.frames.back? = some g := by
  rw [← Array.getLast?_toList, ← List.head?_reverse, hw.frames]
  rfl

/-- The frames of a function at work are those of the machine. -/
theorem mem (hw : m.Works g rest p ps k done) {x : Frame} : x ∈ g :: rest ↔ x ∈ m.frames := by
  rw [← hw.frames, List.mem_reverse, Array.mem_toList_iff]

/-- The innermost function may be replaced. -/
theorem replaced (hw : m.Works g rest p ps k done) (g' : Frame) :
    (m.frames.pop.push g').toList.reverse = g' :: rest := by
  rw [reverse_pop_push, hw.frames]
  rfl

/-- No callee is above the one of the innermost function. -/
theorem base_le (hw : m.Works g rest p ps k done) : ∀ x ∈ g :: rest, x.base ≤ g.base :=
  List.forall_mem_cons.mpr ⟨Nat.le_refl _, fun x hx => Nat.le_of_lt (hw.outer.base_lt x hx)⟩

end Works

/-! ### From one machine to the next -/

/-- Every active function is one of a closure. -/
theorem Ready.exists_closure (hm : m.Ready) (hg : g ∈ m.frames) :
    ∃ c, m.heap.object? g.closure = some (.closure c) := by
  obtain ⟨W, O, hm, -⟩ := hm
  have hmem : g ∈ O.active.map Activation.frame := by
    rw [← hm.frames, List.mem_reverse, Array.mem_toList_iff]
    exact hg
  obtain ⟨a, ha, rfl⟩ := List.mem_map.mp hmem
  exact ⟨a.closure, (hm.runs a ha).closure⟩

/-- In the midst of a run a function is active. -/
theorem Ready.exists_back (hm : m.Ready) : ∃ g, m.frames.back? = some g := by
  obtain ⟨W, O, hm, hp⟩ := hm
  cases hp with
  | intro => exact ⟨_, hm.back_frames rfl⟩

/-- A function that goes on plays the same part. -/
theorem Plays.carry {g' : Frame} (h : m.Plays g p) (hr : m.Retains new m') (hclears : m.Clears m')
    (hm' : m'.Ready) (hg' : g' ∈ m'.frames) (hclosure : g'.closure = g.closure)
    (hchunk : g'.chunk = g.chunk) (hnew : g.closure ∉ new) : m'.Plays g' p := by
  obtain ⟨f, hosts, heq⟩ := h
  have hy := hm'.exists_closure hg'
  rw [hclosure] at hy
  exact ⟨f, hclosure ▸ hosts.carry hr hclears hnew hy, hchunk.trans heq⟩

/-- Functions that wait on do so for the same parts. -/
theorem Waits.carry (h : m.Waits rest ps callee) (hr : m.Retains new m') (hclears : m.Clears m')
    (hm' : m'.Ready) (hrest : ∀ x ∈ rest, x ∈ m'.frames) (hnew : ∀ x ∈ rest, x.closure ∉ new) :
    m'.Waits rest ps callee :=
  h.imp fun x hx _ hq => hq.carry hr hclears hm' (hrest x hx) rfl rfl (hnew x hx)

end Machine

/-- A single instruction of a body makes or changes no code. -/
theorem Body.Permits.shapesCode {B : Body} {i : Instr} (h : B.Permits i) : i.shapesCode = false := by
  cases i <;> first | rfl | cases h

namespace Exec

variable {m m' : Machine} {i : Instr} {f : Frame}

/-! ### Jumps -/

/-- Going elsewhere changes the innermost frame only. -/
theorem setIp_eq_ok {n : Nat} (hback : m.frames.back? = some f) (hdone : setIp n m = .ok () m') :
    m' = { m with frames := m.frames.pop.push { f with ip := n } } := by
  obtain ⟨-, rfl⟩ := EStateM.Result.ok.inj hdone
  rw [← modify_last (fun g : Frame => { g with ip := n }) hback]

/-- A jump forward changes the innermost frame only. -/
theorem skip_eq_ok {d : Nat} (hback : m.frames.back? = some f) (hdone : skip d m = .ok () m') :
    m' = { m with frames := m.frames.pop.push { f with ip := f.ip + d } } := by
  obtain ⟨g, m₁, hframe, hset⟩ := exists_of_bind_ok hdone
  obtain ⟨rfl, hg⟩ := frame_eq_ok hframe
  obtain rfl : f = g := Option.some.inj (hback.symm.trans hg)
  exact setIp_eq_ok hback hset

/-- A jump backward changes the innermost frame only, and stays within the code. -/
theorem goBack_eq_ok {d : Nat} (hback : m.frames.back? = some f) (hdone : goBack d m = .ok () m') :
    d ≤ f.ip ∧ m' = { m with frames := m.frames.pop.push { f with ip := f.ip - d } } := by
  obtain ⟨g, m₁, hframe, hset⟩ := exists_of_bind_ok hdone
  obtain ⟨rfl, hg⟩ := frame_eq_ok hframe
  obtain rfl : f = g := Option.some.inj (hback.symm.trans hg)
  dsimp only at hset
  split at hset
  · obtain ⟨_, m₂, hfault, -⟩ := exists_of_bind_ok hset
    cases hfault
  · next hle => exact ⟨Nat.le_of_not_lt hle, setIp_eq_ok hback hset⟩

/-- A jump leads the innermost function to where the instruction goes. -/
theorem jump_eq_ok {o : Nat} {S : Nat → Prop} (hjump : i.isStraight = false) (hno : i ≠ .return_)
    (hclosure : ∀ k, i ≠ .closure k) (hback : m.frames.back? = some f) (hip : f.ip = o + 1)
    (hgoes : i.Goes o S) (hdone : perform i m = .ok () m') :
    ∃ t, S t ∧ m' = { m with frames := m.frames.pop.push { f with ip := t } } := by
  cases i with
  | jump d =>
    change S (o + 1 + d.toNat) at hgoes
    rw [← hip] at hgoes
    exact ⟨_, hgoes, skip_eq_ok hback hdone⟩
  | jumpIfFalse d =>
    change S (o + 1) ∧ S (o + 1 + d.toNat) at hgoes
    rw [← hip] at hgoes
    obtain ⟨v, m₁, hpeek, hrest⟩ := exists_of_bind_ok hdone
    obtain ⟨rfl, -⟩ := peek_eq_ok hpeek
    split at hrest
    · exact ⟨_, hgoes.2, skip_eq_ok hback hrest⟩
    · obtain ⟨-, rfl⟩ := EStateM.Result.ok.inj hrest
      refine ⟨f.ip, hgoes.1, ?_⟩
      rw [← eq_pop_push hback]
  | loop d =>
    obtain ⟨t, ht, hS⟩ := hgoes
    obtain ⟨hle, heq⟩ := goBack_eq_ok hback hdone
    refine ⟨t, hS, ?_⟩
    rw [heq, show f.ip - d.toNat = t by omega]
  | return_ => exact absurd rfl hno
  | closure k => exact absurd rfl (hclosure k)
  | _ => cases hjump

/-! ### Slots -/

/-- How high the stack is after an instruction. -/
theorem size_perform (hcall : i.arguments? = none) (hno : i ≠ .return_)
    (hsize : i.operands ≤ m.stack.size) (hdone : perform i m = .ok () m') :
    m'.stack.size = m.stack.size - i.operands + i.results := by
  have hwrite {j : Nat} {v : Value} {m₁ : Machine} (h : writeSlot j v m₁ = .ok () m') :
      m'.stack.size = m₁.stack.size := by
    obtain ⟨rfl, -⟩ := writeSlot_eq_ok h
    exact Array.size_setIfInBounds
  have hone (h : 1 ≤ m.stack.size) : m.stack.size = m.stack.size - 1 + 1 := by omega
  by_cases hlocal : ∃ j, i = .setLocal j
  · obtain ⟨j, rfl⟩ := hlocal
    obtain ⟨g, m₂, hframe, hrest⟩ := exists_of_bind_ok hdone
    obtain ⟨rfl, -⟩ := frame_eq_ok hframe
    obtain ⟨v, m₃, hpeek, hset⟩ := exists_of_bind_ok hrest
    obtain ⟨rfl, -⟩ := peek_eq_ok hpeek
    exact (hwrite hset).trans (hone hsize)
  by_cases hupvalue : ∃ j, i = .setUpvalue j
  · obtain ⟨j, rfl⟩ := hupvalue
    obtain ⟨r, m₂, hfound, hrest⟩ := exists_of_bind_ok hdone
    obtain ⟨rfl, -⟩ := frameUpvalue_eq_ok hfound
    obtain ⟨v, m₃, hpeek, hset⟩ := exists_of_bind_ok hrest
    obtain ⟨rfl, -⟩ := peek_eq_ok hpeek
    rcases writeUpvalue_eq_ok hset with ⟨j, -, hslot⟩ | huntouched
    · exact (hwrite hslot).trans (hone hsize)
    · rw [huntouched.stack]
      exact hone hsize
  · exact (moves_perform hcall hno (fun j hj => hlocal ⟨j, hj⟩) (fun j hj => hupvalue ⟨j, hj⟩)
      m () m' hsize hdone).2

/-- An instruction keeps a slot that is not above the callee of its function, if it is no assignment
of the callee and of no captured variable in the slot. -/
theorem kept_perform {j : Nat} (hcall : i.arguments? = none) (hno : i ≠ .return_)
    (hback : m.frames.back? = some f) (hlow : f.base < m.stack.size)
    (hdepth : 0 < i.operands → f.base + i.operands < m.stack.size) (hj : j ≤ f.base)
    (hlocal : i ≠ .setLocal 0) (hupvalue : ∀ index r, i = .setUpvalue index →
      m.upvalue? index = some r → ¬ m.heap.StandsFor r j)
    (hdone : perform i m = .ok () m') : m'.stack[j]? = m.stack[j]? := by
  by_cases hassigned : ∃ s, i = .setLocal s
  · obtain ⟨s, rfl⟩ := hassigned
    obtain ⟨g, m₂, hframe, hrest⟩ := exists_of_bind_ok hdone
    obtain ⟨rfl, hg⟩ := frame_eq_ok hframe
    obtain rfl : f = g := Option.some.inj (hback.symm.trans hg)
    obtain ⟨v, m₃, hpeek, hset⟩ := exists_of_bind_ok hrest
    obtain ⟨rfl, -⟩ := peek_eq_ok hpeek
    obtain ⟨rfl, -⟩ := writeSlot_eq_ok hset
    refine Array.getElem?_setIfInBounds_ne fun heq => hlocal ?_
    rw [show s = 0 from UInt16.toNat_inj.mp (by show s.toNat = 0; omega)]
  by_cases hcaptured : ∃ index, i = .setUpvalue index
  · obtain ⟨index, rfl⟩ := hcaptured
    obtain ⟨r, m₂, hfound, hrest⟩ := exists_of_bind_ok hdone
    obtain ⟨rfl, g, c, hg, hclosure, hget⟩ := frameUpvalue_eq_ok hfound
    obtain ⟨v, m₃, hpeek, hset⟩ := exists_of_bind_ok hrest
    obtain ⟨rfl, -⟩ := peek_eq_ok hpeek
    have hr : m₃.upvalue? index = some r := by
      rw [Machine.upvalue?, hg, Option.bind_some, hclosure]
      exact hget
    rcases writeUpvalue_eq_ok hset with ⟨s, hstands, hslot⟩ | huntouched
    · obtain ⟨rfl, -⟩ := writeSlot_eq_ok hslot
      refine Array.getElem?_setIfInBounds_ne fun heq => ?_
      exact hupvalue index r rfl hr (heq ▸ hstands)
    · rw [huntouched.stack]
  · refine (moves_perform hcall hno (fun j hj => hassigned ⟨j, hj⟩)
      (fun j hj => hcaptured ⟨j, hj⟩) m () m' ?_ hdone).1.slots j ?_
    all_goals
      by_cases hpos : 0 < i.operands
      · have := hdepth hpos
        omega
      · omega

/-- Reading slot zero puts the callee on the stack. -/
theorem getLocal_eq_ok {s : UInt16} (hback : m.frames.back? = some f)
    (hdone : perform (.getLocal s) m = .ok () m') :
    m'.stack.back? = m.stack[f.base + s.toNat]? := by
  obtain ⟨g, m₂, hframe, hrest⟩ := exists_of_bind_ok hdone
  obtain ⟨rfl, hg⟩ := frame_eq_ok hframe
  obtain rfl : f = g := Option.some.inj (hback.symm.trans hg)
  obtain ⟨v, m₃, hread, hpush⟩ := exists_of_bind_ok hrest
  obtain ⟨-, rfl⟩ := EStateM.Result.ok.inj hpush
  unfold readSlot at hread
  split at hread
  · next w hw =>
    obtain ⟨rfl, rfl⟩ := EStateM.Result.ok.inj hread
    rw [hw]
    exact Array.back?_push
  · cases hread

end Exec

namespace Machine

variable {m m' : Machine} {g : Frame} {rest : List Frame} {p : Part} {ps : List Part} {k n : Nat}
  {done left : Atoms} {i : Instr} {ws : List UInt32} {new : List Handle}

/-! ### What every step keeps -/

/-- A step without a trace on closures and classes. -/
theorem Ready.retains_step (hm : m.Ready) (hi : m.next? = some i) (hcode : i.shapesCode = false)
    (hstep : Exec.step m = .ok .running m') : m.Retains [] m' := by
  rcases Exec.step_cases m with ⟨e, m₁, hfault⟩ | ⟨f, j, h, hback, hj, halike, hreturn, hperform⟩
  · cases hfault.symm.trans hstep
  obtain rfl : j = i := Option.some.inj (hj.symm.trans hi)
  obtain ⟨W, O, hshows, -⟩ := hm
  have hfetched := (fetched_preserves hback halike).retains
  by_cases hno : j = .return_
  · exact hfetched.trans (Exec.calm_return.ok ((hreturn hno).symm.trans hstep)).toRetains
  · obtain ⟨_, m₁, hcarried, hpure⟩ := Exec.exists_of_bind_ok ((hperform hno).symm.trans hstep)
    obtain ⟨-, rfl⟩ := EStateM.Result.ok.inj hpure
    exact hfetched.trans ((Exec.mild_perform hcode).ok (hshows.sound.arena.congr halike)
      (hshows.sound.unmarked.congr halike) hcarried).toRetains

/-- No captured variable is in the slot of a callee that a step enters. -/
theorem Ready.clears_step (hm : m.Ready) (hstep : Exec.step m = .ok .running m') : m.Clears m' := by
  obtain ⟨f, i, hback, hi, hadvanced⟩ := Exec.advanced_of_step hm hstep
  have hmem : f ∈ m.frames := Array.mem_of_back? hback
  have hpop (x : Frame) (hx : x ∈ m.frames.pop) : x ∈ m.frames := by
    rw [Exec.eq_pop_push hback]
    exact Array.mem_push.mpr (.inl hx)
  have hfetched (h : Heap) (x : Frame) (hx : x ∈ (m.fetched f h).frames) :
      ∃ y ∈ m.frames, y.base = x.base := by
    rcases Array.mem_push.mp hx with hx | rfl
    · exact ⟨x, hpop x hx, rfl⟩
    · exact ⟨f, hmem, rfl⟩
  cases hadvanced with
  | within _ outer inner _ _ =>
    obtain ⟨g, hg, hrewound⟩ := Option.map_eq_some_iff.mp inner
    have hbase : g.rewound.base = f.rewound.base := by rw [hrewound]
    refine clears_of_frames fun x hx => ?_
    rw [Exec.eq_pop_push hg, outer] at hx
    rcases Array.mem_push.mp hx with hx | rfl
    · exact ⟨x, hpop x hx, rfl⟩
    · exact ⟨f, hmem, hbase.symm⟩
  | @called i _ h hcall _ called =>
    cases called with
    | entered g base _ _ frames =>
      intro x hx
      rw [frames] at hx
      rcases Array.mem_push.mp hx with hx | rfl
      · exact .inl (hfetched h x hx)
      · refine .inr fun u hu => ?_
        have hlt := hm.uncaptured hi hu
        have hall : i.disturbed = i.operands := by cases i <;> first | rfl | cases hcall
        omega
    | answered _ _ frames => exact clears_of_frames fun x hx => hfetched h x (frames ▸ hx)
  | returned _ frames =>
    refine clears_of_frames fun x hx => ?_
    rw [frames] at hx
    exact ⟨x, hpop x hx, rfl⟩

namespace Works

/-- The innermost function is at the next atom of a stretch, and that starts with the instruction
that the machine is at. -/
theorem position (hw : m.Works g rest p ps k done) (hi : m.next? = some i) : ∃ n ws left,
    k = Atoms.climb n done ∧ p.row.At p.body g.ip n done (i.encode :: ws) left := by
  obtain ⟨f, hosts, hchunk⟩ := hw.plays
  rw [next?, hw.back, Option.bind_some, hchunk, ← Array.getElem?_toList, ← hosts.words] at hi
  obtain ⟨w, hword, hdecode⟩ := Option.bind_eq_some_iff.mp hi
  obtain ⟨n, atom, left, hk, hat⟩ := hw.stands.at hosts.laid hword
  have hfirst {j : Instr} {ws : List UInt32} (heq : atom = j.encode :: ws) :
      ∃ n ws left, k = Atoms.climb n done ∧ p.row.At p.body g.ip n done (i.encode :: ws) left := by
    subst heq
    obtain rfl := Option.some.inj (hat.word.symm.trans hword)
    rw [Instr.decode?_encode, Option.some.injEq] at hdecode
    exact ⟨n, ws, left, hk, hdecode ▸ hat⟩
  obtain ⟨o, -, hnext⟩ := hat.next
  cases hnext with
  | instr => exact hfirst rfl
  | inner inner =>
    cases inner with
    | closure codes =>
      cases codes with
      | mk => exact hfirst rfl
    | instr => exact hfirst rfl
    | method => exact hfirst rfl
  | answer => exact hfirst rfl

/-- A step of a function by itself keeps the slots of the callees. -/
theorem callees (hw : m.Works g rest p ps k done) (hm : m.Ready) (hi : m.next? = some i)
    (hcall : i.arguments? = none) (hno : i ≠ .return_) (hlocal : i ≠ .setLocal 0)
    (hupvalue : ∀ index, i = .setUpvalue index →
      ¬ LeadsToCallee p.body.captures p.body.outer index.toNat)
    (hstep : Exec.step m = .ok .running m') :
    ∀ x ∈ m.frames, m'.stack[x.base]? = m.stack[x.base]? := by
  intro x hx
  obtain ⟨f, h, hback, halike, hcarried⟩ := Exec.perform_of_step hi hno hstep
  obtain rfl : g = f := Option.some.inj (hw.back.symm.trans hback)
  obtain ⟨f, hf, -, hdepth⟩ := hm.depth hi
  obtain rfl : g = f := Option.some.inj (hback.symm.trans hf)
  refine Exec.kept_perform (m := m.fetched g h) hcall hno Array.back?_push hw.low hdepth
    (hw.base_le x (hw.mem.mpr hx)) hlocal (fun index r heq hr hstands => ?_) hcarried
  obtain ⟨f, hosts, -⟩ := hw.plays
  obtain ⟨c, hc, hserves⟩ := hosts.closure
  refine hserves.apart index.toNat r ?_ (hupvalue index heq) x hx
    ((halike.object? r).symm.trans hstands)
  rw [upvalue?, show (m.fetched g h).frames.back? = some _ from Array.back?_push, Option.bind_some,
    show (m.fetched g h).heap.object? g.closure = _ from (halike.object? _).trans hc] at hr
  exact hr

end Works

/-! ### Where a step leads -/

/-- What a step makes of the parts `p :: ps` that the active functions run; if the innermost one goes
on, it is behind the atoms `done` of a stretch then. -/
inductive Turned (m : Machine) (p : Part) (ps : List Part) (done : Atoms) (m' : Machine) : Prop
  | on (size : m'.frames.size = m.frames.size) (sits : m'.Sits done (p :: ps))
      (callees : ∀ x ∈ m.frames, m'.stack[x.base]? = m.stack[x.base]?)
  | entered (size : m'.frames.size = m.frames.size + 1)
      (sits : ∀ x q f, m'.frames.back? = some x → m'.Hosts x.closure q f → m'.Sits [] (q :: p :: ps))
      (callees : ∀ x ∈ m.frames, m'.stack[x.base]? = m.stack[x.base]?)
  | returned (size : m'.frames.size + 1 = m.frames.size) (sits : m'.Sits [] ps)
      (callees : ∀ x ∈ m.frames.pop, m'.stack[x.base]? = m.stack[x.base]?)
      (answers : p.body.kind = .initializer → ∀ x, m.frames.back? = some x →
        m.stack.back? = m.stack[x.base]?)

namespace Works

/-- A step leads the innermost function to another place. -/
theorem onward {done' : Atoms} {t : Nat} (hw : m.Works g rest p ps k done) (hm : m.Ready)
    (hm' : m'.Ready) (hi : m.next? = some i) (hcall : i.arguments? = none) (hno : i ≠ .return_)
    (hlocal : i ≠ .setLocal 0) (hupvalue : ∀ index, i = .setUpvalue index →
      ¬ LeadsToCallee p.body.captures p.body.outer index.toNat)
    (hstep : Exec.step m = .ok .running m') (hr : m.Retains new m')
    (hnew : ∀ x ∈ m.frames, x.closure ∉ new)
    (hframes : m'.frames = m.frames.pop.push { g with ip := t })
    (stands : p.row.Stands t (k - i.operands + i.results) done')
    (made : (∀ x ∈ m.frames, m'.stack[x.base]? = m.stack[x.base]?) →
      m'.Made { g with ip := t } p.body done') : m.Turned p ps done' m' := by
  have hcallees := hw.callees hm hi hcall hno hlocal hupvalue hstep
  obtain ⟨f, h, hback, halike, hcarried⟩ := Exec.perform_of_step hi hno hstep
  obtain ⟨f, hf, hsize, hdepth⟩ := hm.depth hi
  obtain rfl : g = f := Option.some.inj (hw.back.symm.trans hf)
  have hheight := hw.height
  have hlow := hw.low
  have hsize' : m'.stack.size = m.stack.size - i.operands + i.results :=
    Exec.size_perform (m := m.fetched _ h) hcall hno (Nat.le_of_add_left_le hsize) hcarried
  have hreversed : m'.frames.toList.reverse = { g with ip := t } :: rest := by
    rw [hframes, hw.replaced]
  have hmem (x : Frame) (hx : x ∈ { g with ip := t } :: rest) : x ∈ m'.frames := by
    rwa [← hreversed, List.mem_reverse, Array.mem_toList_iff] at hx
  have hclears := hm.clears_step hstep
  refine .on ?_ (.intro
    { frames := hreversed
      plays := hw.plays.carry hr hclears hm' (hmem _ List.mem_cons_self) rfl rfl
        (hnew g (hw.mem.mp List.mem_cons_self))
      stands := stands
      height := ?_
      low := ?_
      made := made hcallees
      outer := hw.outer.carry hr hclears hm' (fun x hx => hmem x (List.mem_cons_of_mem _ hx))
        fun x hx => hnew x (hw.mem.mp (List.mem_cons_of_mem _ hx)) }) hcallees
  · have hpos := congrArg Array.size (Exec.eq_pop_push hf)
    rw [Array.size_push] at hpos
    rw [hframes, Array.size_push, hpos]
  · show m'.stack.size = g.base + _
    omega
  · show g.base < _
    by_cases hpos : 0 < i.operands
    · have := hdepth hpos
      omega
    · omega

/-- A call is answered at once or enters a function. -/
theorem calls (hw : m.Works g rest p ps k done) (hm : m.Ready) (hm' : m'.Ready)
    (hi : m.next? = some i) (hcall : i.arguments?.isSome) (hstep : Exec.step m = .ok .running m')
    (mark : p.row.Mark 0 (g.ip + 1) (k - i.operands + i.results)) : m.Turned p ps [] m' := by
  have hno : i ≠ .return_ := by
    rintro rfl
    cases hcall
  have hcode : i.shapesCode = false := by cases i <;> first | rfl | cases hcall
  have hresults : i.results = 1 := by cases i <;> first | rfl | cases hcall
  have hpos : 0 < i.operands := by cases i <;> first | exact Nat.succ_pos _ | cases hcall
  have hr := hm.retains_step hi hcode hstep
  have hclears := hm.clears_step hstep
  obtain ⟨f, h, hback, halike, hcarried⟩ := Exec.perform_of_step hi hno hstep
  obtain ⟨f, hf, hsize, hdepth⟩ := hm.depth hi
  obtain rfl : g = f := Option.some.inj (hw.back.symm.trans hf)
  have hdeep := hdepth hpos
  have hheight := hw.height
  have hfetched : (m.fetched g h).frames.toList.reverse = { g with ip := g.ip + 1 } :: rest :=
    hw.replaced _
  have hframes : (m.fetched g h).frames.size = m.frames.size := by
    have hpushed := congrArg Array.size (Exec.eq_pop_push hf)
    rw [Array.size_push] at hpushed
    show (m.frames.pop.push _).size = _
    rw [Array.size_push, ← hpushed]
  obtain rfl : g = f := Option.some.inj (hf.symm.trans hback)
  have hcalled := Exec.called_perform (m := m.fetched g h) hcall (Nat.le_of_add_left_le hsize) hcarried
  change Machine.Called (m.stack.size - i.operands) (m.fetched g h) m' at hcalled
  have hlower (slots : ∀ j < m.stack.size - i.operands, m'.stack[j]? = m.stack[j]?) :
      ∀ x ∈ m.frames, m'.stack[x.base]? = m.stack[x.base]? := by
    intro x hx
    have := hw.base_le x (hw.mem.mpr hx)
    exact slots _ (by omega)
  cases hcalled with
  | answered v answer frames limit size result slots =>
    have hreversed : m'.frames.toList.reverse = { g with ip := g.ip + 1 } :: rest := by
      rw [frames, hfetched]
    have hmem (x : Frame) (hx : x ∈ { g with ip := g.ip + 1 } :: rest) : x ∈ m'.frames := by
      rwa [← hreversed, List.mem_reverse, Array.mem_toList_iff] at hx
    refine .on (by rw [frames, hframes]) (.intro
      { frames := hreversed
        plays := hw.plays.carry hr hclears hm' (hmem _ List.mem_cons_self) rfl rfl (by simp)
        stands := .mark mark
        height := ?_
        low := ?_
        made := made_nil
        outer := hw.outer.carry hr hclears hm' (fun x hx => hmem x (List.mem_cons_of_mem _ hx))
          fun x hx => by simp }) (hlower slots)
    · show m'.stack.size = g.base + _
      omega
    · show g.base < _
      omega
  | entered x base start room frames limit slots =>
    have hreversed : m'.frames.toList.reverse = x :: { g with ip := g.ip + 1 } :: rest := by
      rw [frames, Array.toList_push, List.reverse_append, hfetched]
      rfl
    have hmem (y : Frame) (hy : y ∈ { g with ip := g.ip + 1 } :: rest) : y ∈ m'.frames := by
      have : y ∈ m'.frames.toList.reverse := hreversed ▸ List.mem_cons_of_mem _ hy
      rwa [List.mem_reverse, Array.mem_toList_iff] at this
    refine .entered (by rw [frames, Array.size_push, hframes]) (fun y q f hy hosts => ?_)
      (hlower slots)
    obtain rfl : x = y := by
      rw [frames, Array.back?_push] at hy
      exact Option.some.inj hy
    obtain ⟨c, hc, hserves⟩ := hosts.closure
    cases (Exec.enters_perform hcall).ok hcarried with
    | stays same =>
      rw [frames] at same
      have := congrArg Array.size same
      rw [Array.size_push] at this
      omega
    | @enters y c' f' b closure function pushed size =>
      obtain rfl : x = ⟨y, f'.chunk, 0, b⟩ := by
        have hpushed := frames.symm.trans pushed
        exact Option.some.inj (by rw [← Array.back?_push, hpushed, Array.back?_push])
      obtain rfl := Object.closure.inj (Option.some.inj (hc.symm.trans closure))
      obtain rfl := Object.function.inj
        (Option.some.inj (hserves.embodies.function.symm.trans function))
      have hbase : b = m.stack.size - i.operands := base
      refine .intro
        { frames := hreversed
          plays := ⟨f, hosts, rfl⟩
          stands := .mark ⟨[], q.row, rfl, rfl, hosts.height⟩
          height := ?_
          low := ?_
          made := made_nil
          outer := .cons (hw.plays.carry hr hclears hm' (hmem _ List.mem_cons_self) rfl rfl (by simp))
            mark ?_ ?_ (hw.outer.carry hr hclears hm'
              (fun z hz => hmem z (List.mem_cons_of_mem _ hz)) fun z hz => by simp) }
      · exact size.trans (Nat.add_assoc _ _ _)
      · show b < _
        omega
      · show g.base + _ = b + 1
        omega
      · show g.base < b
        omega

/-- A return leads back to the function that waits. -/
theorem returns {done' : Atoms} (hw : m.Works g rest p ps k done) (hm : m.Ready) (hm' : m'.Ready)
    (hi : m.next? = some .return_) (hstep : Exec.step m = .ok .running m')
    (answers : p.body.kind = .initializer → m.stack.back? = m.stack[g.base]?) :
    m.Turned p ps done' m' := by
  have hr := hm.retains_step hi rfl hstep
  have hclears := hm.clears_step hstep
  rcases Exec.step_cases m with ⟨e, m₁, hfault⟩ | ⟨f, j, h, hback, hj, halike, hreturn, -⟩
  · cases hfault.symm.trans hstep
  obtain rfl : j = .return_ := Option.some.inj (hj.symm.trans hi)
  obtain rfl : g = f := Option.some.inj (hw.back.symm.trans hback)
  obtain ⟨v, -, hframes, -, hsize, -, hslots⟩ := Exec.return_eq_ok (m := m.fetched g h)
    Array.back?_push hw.low ((hreturn rfl).symm.trans hstep)
  change m'.frames = (m.frames.pop.push _).pop at hframes
  rw [Array.pop_push] at hframes
  change m'.stack.size = g.base + 1 at hsize
  have hreversed : m'.frames.toList.reverse = rest := by
    rw [hframes, Array.toList_pop, ← List.tail_reverse, hw.frames]
    rfl
  have hmem (x : Frame) (hx : x ∈ rest) : x ∈ m'.frames := by
    rwa [← hreversed, List.mem_reverse, Array.mem_toList_iff] at hx
  have hpushed := congrArg Array.size (Exec.eq_pop_push hback)
  rw [Array.size_push] at hpushed
  refine .returned (by rw [hframes, ← hpushed]) ?_ (fun x hx => ?_) fun hkind x hx => ?_
  · have houter := hw.outer.carry hr hclears hm' hmem fun x _ => by simp
    generalize g.base = callee at houter hsize
    cases houter with
    | nil =>
      obtain ⟨W, O, hshows, hpoised⟩ := hm'
      cases hpoised with
      | intro =>
        have hempty := hshows.frames
        rw [hreversed] at hempty
        cases hempty
    | cons plays mark height below outer =>
      exact .intro
        { frames := hreversed
          plays := plays
          stands := .mark mark
          height := hsize.trans height.symm
          low := by omega
          made := made_nil
          outer := outer }
  · rw [← hframes, ← Array.mem_toList_iff, ← List.mem_reverse, hreversed] at hx
    exact hslots _ (hw.outer.base_lt x hx)
  · obtain rfl : g = x := Option.some.inj (hback.symm.trans hx)
    exact answers hkind

/-- A step at a stretch of a single instruction. -/
theorem single (hw : m.Works g rest p ps k []) (hm : m.Ready) (hm' : m'.Ready)
    (hi : m.next? = some i) (hstep : Exec.step m = .ok .running m') (permits : p.body.Permits i)
    (goes : i.Goes g.ip fun t => p.row.Mark 0 t (k - i.operands + i.results)) :
    m.Turned p ps [] m' := by
  by_cases hno : i = .return_
  · subst hno
    exact hw.returns hm hm' hi hstep fun hkind => absurd hkind permits
  have hr := hm.retains_step hi permits.shapesCode hstep
  have honward {t : Nat} (hcall : i.arguments? = none)
      (hframes : m'.frames = m.frames.pop.push { g with ip := t })
      (mark : p.row.Mark 0 t (k - i.operands + i.results)) : m.Turned p ps [] m' := by
    refine hw.onward hm hm' hi hcall hno ?_ ?_ hstep hr (fun x _ => by simp) hframes (.mark mark)
      fun _ => made_nil
    · rintro rfl
      exact permits rfl
    · rintro index rfl
      exact permits
  obtain ⟨f, h, hback, halike, hcarried⟩ := Exec.perform_of_step hi hno hstep
  obtain rfl : g = f := Option.some.inj (hw.back.symm.trans hback)
  cases hstraight : i.isStraight with
  | false =>
    have hcall : i.arguments? = none := by cases i <;> first | rfl | cases hstraight
    have hclosure (c : UInt16) : i ≠ .closure c := by
      rintro rfl
      exact permits
    obtain ⟨t, mark, hmoved⟩ := Exec.jump_eq_ok (m := m.fetched g h) hstraight hno hclosure
      Array.back?_push rfl goes hcarried
    refine honward hcall ?_ mark
    rw [hmoved]
    show (m.frames.pop.push _).pop.push _ = _
    rw [Array.pop_push]
  | true =>
    rw [Instr.goes_of_isStraight hstraight] at goes
    cases hcall : i.arguments? with
    | some count => exact hw.calls hm hm' hi (by rw [hcall]; rfl) hstep goes
    | none => exact honward hcall ((Exec.stays_perform hstraight hcall).ok hcarried) goes

end Works

end Machine

end ScriptMachine
