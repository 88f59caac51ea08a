import ScriptMachine.Proofs.Session.Steps

/-!
# Where calls stop

A call is refused when as many functions are active as may be, or when the stack has as many slots
as those functions are good for. So in every state of a session there are at most that many active
functions, and the slots of each begin below that height. The test is made by calls alone: what a
function puts above its first slot between two calls is not counted.
-/

namespace ScriptMachine

namespace Machine

variable {settings : Settings} {journal : Journal} {sink : Sink} {m m' : Machine}

/-- No more functions are active than may be, and the slots of each begin below the height that
they are good for. -/
structure Bounded (m : Machine) : Prop where
  count : m.frames.size ≤ m.framesMax
  bases : ∀ f ∈ m.frames, f.base < m.framesMax * stackPerFrame

/-- A machine without active functions is bounded. -/
theorem Rests.bounded (hm : m.Rests) : m.Bounded := by
  have hframes := hm.frames_eq
  exact ⟨by simp [hframes], fun f hf => by simp [hframes] at hf⟩

/-- One step keeps the bound: only a call adds a function, and it looks whether there is room. -/
theorem Bounded.step (hb : m.Bounded) (hm : m.Ready) (hdone : Exec.step m = .ok .running m') :
    m'.Bounded ∧ m'.framesMax = m.framesMax := by
  obtain ⟨f, i, hback, -, hadvanced⟩ := Exec.advanced_of_step hm hdone
  have hframes := Exec.eq_pop_push hback
  have hpos : 0 < m.frames.size := by
    rw [hframes, Array.size_push]
    exact Nat.succ_pos _
  have hf : f ∈ m.frames := hframes ▸ Array.mem_push_self
  have hpop (g : Frame) (hg : g ∈ m.frames.pop) : g ∈ m.frames := by
    rw [hframes]
    exact Array.mem_push_of_mem _ hg
  cases hadvanced with
  | within _ outer inner limit =>
    obtain ⟨g, hg, hrewound⟩ := Option.map_eq_some_iff.mp inner
    have hframes' := Exec.eq_pop_push hg
    rw [outer] at hframes'
    refine ⟨⟨?_, fun b hbm => ?_⟩, limit⟩
    · rw [hframes', limit, Array.size_push, Array.size_pop]
      have := hb.count
      omega
    · rw [hframes'] at hbm
      rw [limit]
      rcases Array.mem_push.mp hbm with hbm | rfl
      · exact hb.bases b (hpop b hbm)
      · have hbase : b.rewound.base = f.rewound.base := by rw [hrewound]
        exact Nat.lt_of_le_of_lt (Nat.le_of_eq hbase) (hb.bases f hf)
  | @called _ _ h _ _ called =>
    have hfetched (b : Frame) (hbm : b ∈ (m.fetched f h).frames) :
        b.base < m.framesMax * stackPerFrame := by
      rcases Array.mem_push.mp hbm with hbm | rfl
      · exact hb.bases b (hpop b hbm)
      · exact hb.bases f hf
    have hsize : (m.fetched f h).frames.size = m.frames.size := by
      rw [fetched, Array.size_push, Array.size_pop]
      omega
    cases called with
    | entered g base _ room frames limit =>
      refine ⟨⟨?_, fun b hbm => ?_⟩, limit⟩
      · rw [frames, limit, Array.size_push]
        exact room.1
      · rw [frames] at hbm
        rw [limit]
        rcases Array.mem_push.mp hbm with hbm | rfl
        · exact hfetched b hbm
        · rw [base]
          exact room.2
    | answered _ _ frames limit =>
      refine ⟨⟨?_, fun b hbm => ?_⟩, limit⟩
      · rw [frames, limit, hsize]
        exact hb.count
      · rw [frames] at hbm
        rw [limit]
        exact hfetched b hbm
  | returned _ frames limit =>
    refine ⟨⟨?_, fun b hbm => ?_⟩, limit⟩
    · rw [frames, limit, Array.size_pop]
      have := hb.count
      omega
    · rw [frames] at hbm
      rw [limit]
      exact hb.bases b (hpop b hbm)

/-- So does a run. -/
theorem Bounded.run {fuel : Nat} (hb : m.Bounded) (hm : m.Ready)
    (hdone : Exec.run fuel m = .ok .running m') : m'.Bounded ∧ m'.framesMax = m.framesMax := by
  induction fuel generalizing m with
  | zero =>
    obtain ⟨-, rfl⟩ := EStateM.Result.ok.inj hdone
    exact ⟨hb, rfl⟩
  | succ fuel ih =>
    obtain ⟨progress, m₁, hstep, hrest⟩ := Exec.exists_of_bind_ok hdone
    have hready := Exec.does_step hm
    rw [hstep] at hready
    rcases hready with ⟨rfl, hm₁⟩ | ⟨rfl, -⟩
    · obtain ⟨hb₁, hlimit₁⟩ := hb.step hm hstep
      obtain ⟨hb', hlimit'⟩ := ih hb₁ hm₁ hrest
      exact ⟨hb', hlimit'.trans hlimit₁⟩
    · cases hrest

/-- Entering a script keeps the bound. -/
theorem Bounded.enter {r : Handle} (hb : m.Bounded) (hdone : Exec.enter r m = .ok () m') :
    m'.Bounded := by
  obtain ⟨_, m₁, hpush, hrest⟩ := Exec.exists_of_bind_ok hdone
  obtain ⟨-, rfl⟩ := EStateM.Result.ok.inj hpush
  obtain ⟨c, m₂, halloc, hrest⟩ := Exec.exists_of_bind_ok hrest
  have hsteady := (Exec.steady_alloc _).ok halloc
  obtain ⟨_, m₃, hdrop, hrest⟩ := Exec.exists_of_bind_ok hrest
  obtain ⟨v, m₄, hpop, hdrop⟩ := Exec.exists_of_bind_ok hdrop
  obtain ⟨rfl, -⟩ := Exec.pop_eq_ok hpop
  obtain ⟨-, rfl⟩ := EStateM.Result.ok.inj hdrop
  obtain ⟨_, m₅, hpush, hcall⟩ := Exec.exists_of_bind_ok hrest
  obtain ⟨-, rfl⟩ := EStateM.Result.ok.inj hpush
  have hcalled := Exec.calling_callClosure c 0 _ m' (by simp) hcall
  cases hcalled with
  | entered g base _ room frames limit =>
    refine ⟨?_, fun b hbm => ?_⟩
    · rw [frames, limit, Array.size_push]
      exact room.1
    · rw [frames] at hbm
      rw [limit]
      rcases Array.mem_push.mp hbm with hbm | rfl
      · have hbase := hb.bases b (hsteady.frames ▸ hbm)
        exact hsteady.limit.symm ▸ hbase
      · rw [base]
        exact room.2
  | answered _ _ frames limit =>
    refine ⟨?_, fun b hbm => ?_⟩
    · rw [frames, limit]
      exact hsteady.frames.symm ▸ hsteady.limit.symm ▸ hb.count
    · rw [frames] at hbm
      rw [limit]
      have hbase := hb.bases b (hsteady.frames ▸ hbm)
      exact hsteady.limit.symm ▸ hbase

/-- A stopped run does not go on. -/
theorem settle_ne_unfinished (m : Machine) (halt : Halt) : (m.settle halt).1 ≠ .unfinished := by
  unfold settle
  split
  · exact Outcome.noConfusion
  · split <;> exact Outcome.noConfusion

/-- A source that is loaded and goes on has been compiled and entered. -/
theorem load_unfinished {source : String} (hdone : m.load source = (.unfinished, m')) :
    ∃ r m₁, m.compile source = (.function r, m₁) ∧ Exec.enter r m₁ = .ok () m' := by
  unfold Machine.load at hdone
  split at hdone
  · cases hdone
  · cases hdone
  · next r m₁ hmade =>
    cases henter : Exec.enter r m₁ with
    | ok _ m₂ =>
      rw [henter] at hdone
      obtain ⟨-, rfl⟩ := Prod.mk.inj hdone
      exact ⟨r, m₁, hmade, henter⟩
    | error halt m₂ =>
      rw [henter] at hdone
      exact absurd (congrArg Prod.fst hdone) (settle_ne_unfinished m₂ halt)

/-- A run that is resumed and goes on has been a run. -/
theorem resume_unfinished {fuel : Nat} (hdone : m.resume fuel = (.unfinished, m')) :
    Exec.run fuel m = .ok .running m' := by
  unfold Machine.resume at hdone
  cases hrun : Exec.run fuel m with
  | ok progress m₁ =>
    rw [hrun] at hdone
    cases progress with
    | running =>
      obtain ⟨-, rfl⟩ := Prod.mk.inj hdone
      rfl
    | finished => cases hdone
  | error halt m₁ =>
    rw [hrun] at hdone
    exact absurd (congrArg Prod.fst hdone) (settle_ne_unfinished m₁ halt)

/-- A source that is loaded and goes on keeps the bound. -/
theorem Bounded.load {source : String} (hm : m.Rests)
    (hdone : m.load source = (.unfinished, m')) : m'.Bounded := by
  obtain ⟨W, hm⟩ := hm
  have hcompiled := hm.compiled source
  obtain ⟨r, m₁, hmade, henter⟩ := load_unfinished hdone
  rw [hmade] at hcompiled
  cases hcompiled with
  | @function V _ _ shows => exact (Rests.bounded ⟨V, shows⟩).enter henter

/-- Every state of a session is bounded. -/
theorem Reached.bounded {p : Phase} (hm : Reached settings journal sink p m) : m.Bounded := by
  induction hm with
  | @created m done => exact Rests.bounded (Reached.created done).inPhase
  | @loaded m m' source outcome p before done phase _ =>
    cases outcome with
    | unfinished => exact .load before.inPhase done
    | fault f => cases phase
    | ok | refused _ | failed _ =>
      cases phase
      exact Rests.bounded (before.loaded done rfl).inPhase
  | @resumed m m' fuel outcome p before done phase ih =>
    cases outcome with
    | unfinished => exact (ih.run before.inPhase (resume_unfinished done)).1
    | fault f => cases phase
    | ok | refused _ | failed _ =>
      cases phase
      exact Rests.bounded (before.resumed done rfl).inPhase
  | disassembled before done whole _ =>
    exact Rests.bounded (before.disassembled done whole).inPhase
  | collected before _ => exact Rests.bounded before.collected.inPhase
  | tookOutput _ ih => exact ⟨ih.count, ih.bases⟩
  | tookEvents _ ih => exact ⟨ih.count, ih.bases⟩
  | ticked _ _ ih => exact ⟨ih.count, ih.bases⟩

end Machine

namespace Exec

end Exec

namespace Machine

/-- In every state of a session no more functions are active than may be, and the slots of each
begin below the height that the stack may have for a call. -/
theorem sessions_bound_frames (settings : Settings) (journal : Journal) (sink : Sink) :
    ∀ p m, Reached settings journal sink p m →
      m.frames.size ≤ m.framesMax ∧ ∀ f ∈ m.frames, f.base < m.framesMax * stackPerFrame :=
  fun _ _ hm => ⟨hm.bounded.count, hm.bounded.bases⟩

end Machine

end ScriptMachine
