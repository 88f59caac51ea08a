import ScriptMachine.Proofs.Session.Steps

/-!
# Calls and returns

A call enters its callee, or the callee answers at once. However many functions the callee calls in
its turn, the frames of the functions that wait are not touched, and their slots only by assignments
of captured variables. So when the callee returns, its value stands where the callee and its
arguments were, and the caller goes on behind the call.
-/

namespace ScriptMachine

namespace Machine

variable {settings : Settings} {journal : Journal} {sink : Sink} {m m₁ m' n n' : Machine}
  {depth callee : Nat} {F : Array Frame}

/-! ### Runs -/

/-- What may come next of a machine in the midst of a run: a step, or that time passes or that what
it has printed or reported is taken. -/
inductive Follows (m : Machine) : Machine → Prop
  | stepped {m' : Machine} (done : Exec.step m = .ok .running m') : Follows m m'
  | ticked (now : Float) : Follows m { m with clock := now }
  | tookOutput : Follows m m.takeOutput.2
  | tookEvents : Follows m m.takeEvents.2

/-- A run that goes on as long as more than `depth` functions are active. -/
inductive Within (depth : Nat) (m : Machine) : Machine → Prop
  | refl : Within depth m m
  | tail {n m' : Machine} (run : Within depth m n) (deep : depth < n.frames.size)
      (next : Follows n m') : Within depth m m'

/-- A step leads to a reached machine. -/
theorem Reached.follows (hm : Reached settings journal sink .running m) (h : Follows m m') :
    Reached settings journal sink .running m' := by
  cases h with
  | stepped done =>
    have hrun : Exec.run 1 m = .ok .running m' := (Exec.bind_eq done).trans rfl
    have hresume : m.resume 1 = (.unfinished, m') := by
      rw [resume, hrun]
    exact hm.resumed hresume rfl
  | ticked now => exact hm.ticked now
  | tookOutput => exact hm.tookOutput
  | tookEvents => exact hm.tookEvents

/-- Steps within a call lead to a reached machine. -/
theorem Reached.within (hm : Reached settings journal sink .running m) (h : Within depth m m') :
    Reached settings journal sink .running m' := by
  induction h with
  | refl => exact hm
  | tail _ _ next ih => exact ih.follows next

/-! ### Inside a callee -/

/-- Inside a callee whose slots begin at `callee`, called with the frames `F` active: these are
still there, and the slots of every function called since begin at the callee's or above. -/
structure Inside (F : Array Frame) (callee : Nat) (n : Machine) : Prop where
  outer : ∀ k < F.size, n.frames[k]? = F[k]?
  first : ∀ f, n.frames[F.size]? = some f → f.base = callee
  bases : ∀ k f, F.size ≤ k → n.frames[k]? = some f → callee ≤ f.base

namespace Inside

/-- With the frames of the caller innermost, the callee has returned. -/
theorem returned (h : Inside F callee n) (hsize : n.frames.size = F.size) : n.frames = F := by
  refine Array.ext_getElem? fun k => ?_
  rcases Nat.lt_or_ge k F.size with hlt | hge
  · exact h.outer k hlt
  · rw [Array.getElem?_eq_none (by omega), Array.getElem?_eq_none hge]

/-- The innermost function has its slots at the callee's or above. -/
theorem base {f : Frame} (h : Inside F callee n) (hdeep : F.size < n.frames.size)
    (hback : n.frames.back? = some f) :
    callee ≤ f.base ∧ (n.frames.size = F.size + 1 → f.base = callee) := by
  rw [Array.back?] at hback
  exact ⟨h.bases _ f (by omega) hback, fun hone => h.first f (by rwa [hone] at hback)⟩

/-- The innermost function may go on. -/
theorem replaced {f g : Frame} (h : Inside F callee n) (hdeep : F.size < n.frames.size)
    (hback : n.frames.back? = some f) (hframes : n'.frames = n.frames.pop.push g)
    (hbase : g.base = f.base) : Inside F callee n' := by
  have hlast : n.frames[n.frames.size - 1]? = some f := hback
  have hget (k : Nat) : n'.frames[k]? =
      if k = n.frames.size - 1 then some g else n.frames[k]? := by
    rw [hframes, Array.getElem?_push, Array.size_pop, Array.getElem?_pop]
    split
    · rfl
    · split
      · rfl
      · exact (Array.getElem?_eq_none (by omega)).symm
  refine ⟨fun k hk => ?_, fun b hb => ?_, fun k b hk hb => ?_⟩
  · rw [hget, if_neg (by omega), h.outer k hk]
  · rw [hget] at hb
    split at hb
    · next heq =>
      rw [← Option.some.inj hb, hbase]
      exact h.first f (by rw [heq, hlast])
    · exact h.first b hb
  · rw [hget] at hb
    split at hb
    · next heq =>
      rw [← Option.some.inj hb, hbase]
      exact h.bases k f hk (by rw [heq, hlast])
    · exact h.bases k b hk hb

/-- Another function may be called. -/
theorem pushed {g : Frame} (h : Inside F callee n) (hdeep : F.size < n.frames.size)
    (hframes : n'.frames = n.frames.push g) (hbase : callee ≤ g.base) : Inside F callee n' := by
  refine ⟨fun k hk => ?_, fun b hb => ?_, fun k b hk hb => ?_⟩
  · rw [hframes, Array.getElem?_push, if_neg (by omega), h.outer k hk]
  · rw [hframes, Array.getElem?_push, if_neg (by omega)] at hb
    exact h.first b hb
  · rw [hframes, Array.getElem?_push] at hb
    split at hb
    · rwa [← Option.some.inj hb]
    · exact h.bases k b hk hb

/-- The innermost function may return. -/
theorem popped (h : Inside F callee n) (hdeep : F.size < n.frames.size)
    (hframes : n'.frames = n.frames.pop) : Inside F callee n' := by
  have hget (k : Nat) (b : Frame) (hb : n'.frames[k]? = some b) : n.frames[k]? = some b := by
    rw [hframes, Array.getElem?_pop] at hb
    split at hb
    · exact hb
    · cases hb
  refine ⟨fun k hk => ?_, fun b hb => h.first b (hget _ b hb),
    fun k b hk hb => h.bases k b hk (hget k b hb)⟩
  rw [hframes, Array.getElem?_pop, if_pos (by omega), h.outer k hk]

/-- Inside a callee, a step stays inside or returns from the callee; it changes a slot of the caller
only by assigning a captured variable. -/
theorem advanced {f : Frame} {i : Instr} (h : Inside F callee n) (hdeep : F.size < n.frames.size)
    (hback : n.frames.back? = some f) (hstep : n.Advanced f i n') :
    Inside F callee n' ∧
      (∀ j < callee, n'.stack[j]? = n.stack[j]? ∨ n.Assigns j n') ∧
      (n'.frames.size = F.size → i = .return_ ∧ n.frames.size = F.size + 1 ∧
        n'.stack.size = callee + 1 ∧ n'.stack[callee]? = n.stack.back?) := by
  obtain ⟨hlow, hfirst⟩ := h.base hdeep hback
  have hlarger (g : Frame) : (n.frames.pop.push g).size = n.frames.size := by
    rw [Array.size_push, Array.size_pop]
    omega
  cases hstep with
  | within _ outer inner _ slots =>
    obtain ⟨g, hg, hrewound⟩ := Option.map_eq_some_iff.mp inner
    have hframes := Exec.eq_pop_push hg
    rw [outer] at hframes
    have hbase : g.rewound.base = f.rewound.base := by rw [hrewound]
    refine ⟨h.replaced hdeep hback hframes hbase, fun j hj => slots j (by omega), fun hsize => ?_⟩
    rw [hframes, hlarger] at hsize
    omega
  | @called _ _ heap _ deep called =>
    have hfetched : Inside F callee (n.fetched f heap) :=
      h.replaced hdeep hback rfl rfl
    have hsize : (n.fetched f heap).frames.size = n.frames.size := hlarger _
    cases called with
    | entered g base _ _ frames _ slots =>
      refine ⟨hfetched.pushed (hsize ▸ hdeep) frames (by omega),
        fun j hj => .inl (slots j (by omega)), fun hsize' => ?_⟩
      rw [frames, Array.size_push, hsize] at hsize'
      omega
    | answered _ _ frames _ _ _ slots =>
      refine ⟨⟨fun k hk => ?_, fun b hb => ?_, fun k b hk hb => ?_⟩,
        fun j hj => .inl (slots j (by omega)), fun hsize' => ?_⟩
      · rw [frames, hfetched.outer k hk]
      · exact hfetched.first b (frames ▸ hb)
      · exact hfetched.bases k b hk (frames ▸ hb)
      · rw [frames, hsize] at hsize'
        omega
  | returned top frames _ size result slots =>
    refine ⟨h.popped hdeep frames, fun j hj => .inl (slots j (by omega)), fun hsize => ?_⟩
    rw [frames, Array.size_pop] at hsize
    have hone : n.frames.size = F.size + 1 := by omega
    rw [← hfirst hone]
    exact ⟨rfl, hone, size, result.trans top.symm⟩

end Inside

/-! ### From the call to the return -/

/-- The slot `j` has the value of `m`, or the one that an assignment of the captured variable put
there in the course of the run from `m₁`. -/
inductive SlotOf (depth : Nat) (m m₁ : Machine) (j : Nat) (n : Machine) : Prop
  | kept (same : n.stack[j]? = m.stack[j]?) : SlotOf depth m m₁ j n
  | assigned {a a' : Machine} (before : Within depth m₁ a) (deep : depth < a.frames.size)
      (step : Exec.step a = .ok .running a') (assigns : a.Assigns j a')
      (after : Within depth a' n) (same : n.stack[j]? = a'.stack[j]?) : SlotOf depth m m₁ j n

/-- Where the value `v` of a call comes from: the callee has answered at once, or it was on top of
the stack when the callee, which alone was active above the caller, returned. -/
inductive Result (depth callee : Nat) (m₁ m' : Machine) (v : Value) : Prop
  | atOnce (same : m' = m₁) (answer : Answer callee v) : Result depth callee m₁ m' v
  | later {n : Machine} (run : Within depth m₁ n) (one : n.frames.size = depth + 1)
      (next : n.next? = some .return_) (top : n.stack.back? = some v)
      (step : Exec.step n = .ok .running m') : Result depth callee m₁ m' v

/-- What a call of `m`, which left the frames `F`, has come to in `n`, in the course of the run
from `m₁`. -/
structure InCall (F : Array Frame) (callee : Nat) (m m₁ n : Machine) : Prop where
  inside : Inside F callee n
  slots : ∀ j < callee, SlotOf F.size m m₁ j n
  done : n.frames.size = F.size → n.stack.size = callee + 1 ∧
    ∃ v, n.stack[callee]? = some v ∧ Result F.size callee m₁ n v

/-- A slot has its value also after what does not change it. -/
theorem SlotOf.next {j : Nat} (h : SlotOf depth m m₁ j n)
    (deep : depth < n.frames.size) (next : Follows n n') (same : n'.stack[j]? = n.stack[j]?) :
    SlotOf depth m m₁ j n' := by
  cases h with
  | kept same' => exact .kept (same.trans same')
  | assigned before deep' step assigns after same' =>
    exact .assigned before deep' step assigns (after.tail deep next) (same.trans same')

namespace InCall

/-- The call itself enters the callee or is answered at once. -/
theorem start {f : Frame} {i : Instr} (hcall : i.arguments?.isSome)
    (hadvanced : m.Advanced f i m₁) :
    InCall (m.frames.pop.push { f with ip := f.ip + 1 }) (m.stack.size - i.operands) m m₁ m₁ := by
  cases hadvanced with
  | within none => rw [none] at hcall; cases hcall
  | returned => cases hcall
  | called _ _ called =>
    cases called with
    | entered g base _ _ frames _ slots =>
      change m₁.frames = (m.frames.pop.push { f with ip := f.ip + 1 }).push g at frames
      refine ⟨⟨fun k hk => ?_, fun b hb => ?_, fun k b hk hb => ?_⟩, fun j hj => .kept (slots j hj),
        fun hsize => ?_⟩
      · rw [frames, Array.getElem?_push, if_neg (by omega)]
      · rw [frames, Array.getElem?_push, if_pos rfl] at hb
        rwa [← Option.some.inj hb]
      · rw [frames, Array.getElem?_push] at hb
        split at hb
        · rw [← Option.some.inj hb]
          exact Nat.le_of_eq base.symm
        · rw [Array.getElem?_eq_none hk] at hb
          cases hb
      · rw [frames, Array.size_push] at hsize
        omega
    | answered v answer frames _ size result slots =>
      change m₁.frames = m.frames.pop.push { f with ip := f.ip + 1 } at frames
      refine ⟨⟨fun k _ => by rw [frames], fun b hb => ?_, fun k b hk hb => ?_⟩,
        fun j hj => .kept (slots j hj), fun _ => ⟨size, v, result, .atOnce rfl answer⟩⟩
      · rw [frames, Array.getElem?_eq_none (Nat.le_refl _)] at hb
        cases hb
      · rw [frames, Array.getElem?_eq_none hk] at hb
        cases hb

/-- So does whatever comes next, until the callee has returned. -/
theorem follows (h : InCall F callee m m₁ n) (hrun : Within F.size m₁ n) (hn : n.Ready)
    (hdeep : F.size < n.frames.size) (next : Follows n n') : InCall F callee m m₁ n' := by
  have hsame {x : Machine} (hx : Follows n x) (hstack : x.stack = n.stack)
      (hframes : x.frames = n.frames) : InCall F callee m m₁ x := by
    refine ⟨⟨fun k hk => ?_, fun b hb => ?_, fun k b hk hb => ?_⟩, fun j hj => ?_, fun hsize => ?_⟩
    · rw [hframes, h.inside.outer k hk]
    · exact h.inside.first b (hframes ▸ hb)
    · exact h.inside.bases k b hk (hframes ▸ hb)
    · exact (h.slots j hj).next hdeep hx (by rw [hstack])
    · rw [hframes] at hsize
      omega
  cases next with
  | stepped hstep =>
    obtain ⟨f, i, hback, hi, hadvanced⟩ := Exec.advanced_of_step hn hstep
    obtain ⟨hinside, hslots, hreturned⟩ := h.inside.advanced hdeep hback hadvanced
    refine ⟨hinside, fun j hj => ?_, fun hsize => ?_⟩
    · rcases hslots j hj with hsame | hassigns
      · exact (h.slots j hj).next hdeep (.stepped hstep) hsame
      · exact .assigned hrun hdeep hstep hassigns .refl rfl
    · obtain ⟨rfl, hone, hstack, hresult⟩ := hreturned hsize
      have hlt : callee < n'.stack.size := by omega
      rw [Array.getElem?_eq_getElem hlt] at hresult
      exact ⟨hstack, _, Array.getElem?_eq_getElem hlt, .later hrun hone hi hresult.symm hstep⟩
  | ticked now => exact hsame (.ticked now) rfl rfl
  | tookOutput => exact hsame .tookOutput rfl rfl
  | tookEvents => exact hsame .tookEvents rfl rfl

/-- So does the whole run. -/
theorem within (h : InCall F callee m m₁ m₁) (hm : Reached settings journal sink .running m₁)
    (hrun : Within F.size m₁ n) : InCall F callee m m₁ n := by
  induction hrun with
  | refl => exact h
  | tail run deep next ih => exact ih.follows run (hm.within run).inPhase deep next

end InCall

/-- A call that a session makes of a function of whatever kind is neutral to the caller. When as
many functions are active again as before, which is when the callee has returned, the callee's slot
holds the value of the call and is the last one of the stack; the slots below have their old values,
or one that an assignment of the captured variable in the slot put there since; and the caller's
frame is as it was, behind the instruction. -/
theorem calls_neutral_to_caller (settings : Settings) (journal : Journal) (sink : Sink) {i : Instr}
    (hm : Reached settings journal sink .running m) (hi : m.next? = some i)
    (hcall : i.arguments?.isSome) (hstep : Exec.step m = .ok .running m₁)
    (hrun : Within m.frames.size m₁ m') (hreturned : m'.frames.size = m.frames.size) :
    ∃ f v, m.frames.back? = some f ∧
      m'.frames = m.frames.pop.push { f with ip := f.ip + 1 } ∧
      m'.stack.size = m.stack.size - i.operands + 1 ∧
      m'.stack[m.stack.size - i.operands]? = some v ∧
      Result m.frames.size (m.stack.size - i.operands) m₁ m' v ∧
      ∀ j < m.stack.size - i.operands, SlotOf m.frames.size m m₁ j m' := by
  obtain ⟨f, i', hback, hi', hadvanced⟩ := Exec.advanced_of_step hm.inPhase hstep
  obtain rfl : i' = i := Option.some.inj (hi'.symm.trans hi)
  have hsize : (m.frames.pop.push { f with ip := f.ip + 1 }).size = m.frames.size := by
    have hpos : 0 < m.frames.size := by
      rw [Exec.eq_pop_push hback, Array.size_push]
      exact Nat.succ_pos _
    rw [Array.size_push, Array.size_pop]
    omega
  have hin := (InCall.start hcall hadvanced).within (hm.follows (.stepped hstep)) (hsize ▸ hrun)
  obtain ⟨hstack, v, hv, hresult⟩ := hin.done (hreturned.trans hsize.symm)
  have hslots := hin.slots
  rw [hsize] at hresult hslots
  exact ⟨f, v, hback, hin.inside.returned (hreturned.trans hsize.symm), hstack, hv, hresult, hslots⟩

/-- A slice of one instruction that does not end the run is a step. -/
theorem follows_resume (h : (m.resume 1).1.phase? = some .running) :
    Exec.step m = .ok .running (m.resume 1).2 := by
  rw [resume] at h ⊢
  cases hstep : Exec.step m with
  | ok progress m₁ =>
    have hrun : Exec.run 1 m = .ok progress m₁ := by
      refine (Exec.bind_eq hstep).trans ?_
      cases progress <;> rfl
    cases progress with
    | running => rw [hrun]
    | finished =>
      rw [hrun] at h
      cases h
  | error halt m₁ =>
    have hrun : Exec.run 1 m = .error halt m₁ := Exec.bind_error hstep
    rw [hrun] at h
    unfold settle at h
    cases halt with
    | fault f => cases h
    | error e =>
      dsimp only at h
      split at h <;> cases h

/-- A function that gives nothing is called and returns to the script. -/
theorem empty_function_returns : ∃ m m₁ m' f v, m.next? = some (.call 0) ∧
    Exec.step m = .ok .running m₁ ∧ Within 1 m₁ m' ∧ m.frames.back? = some f ∧
    m'.frames = m.frames.pop.push { f with ip := f.ip + 1 } ∧ m'.stack[1]? = some v := by
  have hruns : (create Settings.standard Journal.off Sink.unlimited).toOption.any (fun m =>
      let loaded := m.load "def f() {} f();"
      let at_ := (loaded.2.resume 3).2
      let entered := (at_.resume 1).2
      let given := (entered.resume 1).2
      decide (loaded.1.phase? = some .running) &&
        decide ((loaded.2.resume 3).1.phase? = some .running) &&
        decide (at_.next? = some (.call 0)) && decide (at_.frames.size = 1) &&
        decide (at_.stack.size = 2) && decide ((at_.resume 1).1.phase? = some .running) &&
        decide (entered.frames.size = 2) && decide ((entered.resume 1).1.phase? = some .running) &&
        decide (given.frames.size = 2) && decide ((given.resume 1).1.phase? = some .running) &&
        decide ((given.resume 1).2.frames.size = 1)) = true := by decide +kernel
  obtain ⟨m, hcreated, hruns⟩ := exists_created hruns
  simp only [Bool.and_eq_true, decide_eq_true_eq, and_assoc] at hruns
  obtain ⟨hload, hresume, hnext, hframes, hstack, hcall, hinside, hgive, hsteady, hreturn, hback⟩ :=
    hruns
  have hreached : Reached Settings.standard Journal.off Sink.unlimited .running
      ((m.load "def f() {} f();").2.resume 3).2 :=
    ((Reached.created hcreated).loaded rfl hload).resumed rfl hresume
  generalize ((m.load "def f() {} f();").2.resume 3).2 = at_ at *
  have hrun : Within 1 (at_.resume 1).2 (((at_.resume 1).2.resume 1).2.resume 1).2 :=
    (Within.refl.tail (by omega) (.stepped (follows_resume hgive))).tail (by omega)
      (.stepped (follows_resume hreturn))
  obtain ⟨f, v, hf, hframes', -, hv, -⟩ := calls_neutral_to_caller Settings.standard Journal.off
    Sink.unlimited hreached hnext rfl (follows_resume hcall) (hframes ▸ hrun) (hback.trans hframes.symm)
  rw [hstack] at hv
  exact ⟨at_, _, _, f, v, hnext, follows_resume hcall, hrun, hf, hframes', hv⟩

end Machine

end ScriptMachine
