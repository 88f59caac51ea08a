import ScriptMachine.Proofs.Session.Errors

/-!
# Comparisons

A weak comparison of two numbers is done by the opposite strict one, negated. Numbers that are not
ordered make the strict comparisons fail both ways, so the weak ones hold of them: of two numbers
`a <= b` holds if `a < b` does, or `a == b`, or if one of them is no number at all by the rules of
floating point. Operands that are no numbers stop every comparison of order.
-/

namespace ScriptMachine

/-! ### The order of numbers -/

namespace Number

open Float.Model Float.Model.UnpackedFloat

/-- Two numbers compare the other way round from the other side. -/
theorem compare_swap (u v : UnpackedFloat) : v.compare u = (u.compare v).map Ordering.swap := by
  cases u with
  | notANumber => cases v <;> rfl
  | infinity s =>
    cases v with
    | infinity t => cases s <;> cases t <;> rfl
    | _ => cases s <;> rfl
  | zero s =>
    cases v with
    | infinity t | finite t => cases t <;> rfl
    | _ => rfl
  | finite s n e _ =>
    cases v with
    | infinity t => cases t <;> cases s <;> rfl
    | finite t k f _ =>
      have hswap : ((compare e f).then (compare n k)).swap = (compare f e).then (compare k n) := by
        rw [Ordering.swap_then, Nat.compare_swap, Int.compare_swap]
      cases s with
      | positive =>
        cases t with
        | positive => exact congrArg some hswap.symm
        | negative => rfl
      | negative =>
        cases t with
        | positive => rfl
        | negative => exact congrArg (some ·.swap) hswap.symm
    | _ => cases s <;> rfl

/-- Only what is not a number is not ordered. -/
theorem compare_eq_none (u v : UnpackedFloat) :
    u.compare v = none ↔ u.isNaN = true ∨ v.isNaN = true := by
  have hordered {o : Ordering} : some o = none ↔ false = true ∨ false = true := by simp
  cases u with
  | notANumber => exact iff_of_true rfl (.inl rfl)
  | infinity s =>
    cases v with
    | notANumber => cases s <;> exact iff_of_true rfl (.inr rfl)
    | infinity t => cases s <;> cases t <;> exact hordered
    | _ => cases s <;> exact hordered
  | zero s =>
    cases v with
    | notANumber => exact iff_of_true rfl (.inr rfl)
    | infinity t | finite t => cases t <;> exact hordered
    | zero => exact hordered
  | finite s n e _ =>
    cases v with
    | notANumber => cases s <;> exact iff_of_true rfl (.inr rfl)
    | infinity t | finite t => cases t <;> cases s <;> exact hordered
    | zero => cases s <;> exact hordered

variable (x y : Float)

/-- A number is less than another if the comparison says so. -/
theorem lt_iff : x < y ↔ x.toModel.unpack.compare y.toModel.unpack = some .lt := by
  show Float.lt x y = true ↔ _
  rw [Float.lt, decide_eq_true_iff]
  show UnpackedFloat.lt _ _ = true ↔ _
  rw [UnpackedFloat.lt, beq_iff_eq]

/-- A number equals another if the comparison says so. -/
theorem beq_iff : (x == y) = true ↔ x.toModel.unpack.compare y.toModel.unpack = some .eq := by
  show (x.toModel.unpack.compare y.toModel.unpack == some .eq) = true ↔ _
  rw [beq_iff_eq]

/-- What is no number compares with nothing. -/
theorem isNaN_iff : x.isNaN = true ∨ y.isNaN = true ↔
    x.toModel.unpack.compare y.toModel.unpack = none :=
  (compare_eq_none _ _).symm

/-- Of two numbers the first is less, or they are equal, or the second is less, or they are not
ordered. -/
theorem not_lt_iff :
    ¬ y < x ↔ x < y ∨ (x == y) = true ∨ x.isNaN = true ∨ y.isNaN = true := by
  rw [isNaN_iff, lt_iff, lt_iff, beq_iff, compare_swap x.toModel.unpack]
  cases x.toModel.unpack.compare y.toModel.unpack with
  | none => simp
  | some o => cases o <;> simp

/-- The same from the other side. -/
theorem not_gt_iff :
    ¬ x < y ↔ x > y ∨ (x == y) = true ∨ x.isNaN = true ∨ y.isNaN = true := by
  rw [isNaN_iff, GT.gt, lt_iff, lt_iff, beq_iff, compare_swap x.toModel.unpack]
  cases x.toModel.unpack.compare y.toModel.unpack with
  | none => simp
  | some o => cases o <;> simp

end Number

/-! ### Operands on top of the stack -/

namespace Exec

variable {α β : Type} {m : Machine} {below : Array Value} {a b : Value} {x y : Float}

/-- Two numbers are replaced by what an operation makes of them. -/
theorem arithmetic_top (operator : Symbol) (f : Float → Float → Value)
    (h : m.stack = (below.push a).push b) (ha : a.toFloat? = some x) (hb : b.toFloat? = some y) :
    arithmetic operator f m = .ok () { m with stack := below.push (f x y) } := by
  have hpopped : popNumbers operator m = .ok (x, y) { m with stack := below } := by
    have hnext : ({ m with stack := below.push a } : Machine).stack = below.push a := rfl
    rw [popNumbers, bind_eq (peek_top h), bind_eq (peek_second h)]
    simp only [ha, hb]
    rw [bind_eq (drop_top h), bind_eq (drop_top hnext)]
    rfl
  rw [arithmetic, bind_eq hpopped]
  rfl

/-- What is no number stops an operation on numbers. -/
theorem arithmetic_refused (operator : Symbol) (f : Float → Float → Value) {ta tb : String}
    (h : m.stack = (below.push a).push b) (hno : a.toFloat? = none ∨ b.toFloat? = none)
    (ha : m.heap.typeName a = .ok ta) (hb : m.heap.typeName b = .ok tb) :
    arithmetic operator f m = .error (.error (.typeMismatch operator .numbers [ta, tb])) m := by
  have htypes : [a, b].mapM m.heap.typeName = .ok [ta, tb] := by
    rw [List.mapM_cons, ha, List.mapM_cons, hb]
    rfl
  have hpopped : popNumbers operator m =
      .error (.error (.typeMismatch operator .numbers [ta, tb])) m := by
    rw [popNumbers, bind_eq (peek_top h), bind_eq (peek_second h)]
    have hraised : (raiseMismatch operator .numbers [a, b] : Exec (Float × Float)) m =
        .error (.error (.typeMismatch operator .numbers [ta, tb])) m := by
      rw [raiseMismatch, bind_eq (readHeap_eq htypes)]
      rfl
    rcases hno with hno | hno
    · simp only [hno]
      exact hraised
    · cases ha : a.toFloat? <;> simp only [hno] <;> exact hraised
  rw [arithmetic, bind_error hpopped]

/-- Two numbers are replaced by whether they are equal. -/
theorem equal_top (h : m.stack = (below.push a).push b) (ha : a.toFloat? = some x)
    (hb : b.toFloat? = some y) :
    equal m = .ok () { m with stack := below.push (.ofBool (x == y)) } := by
  have hsame : a.same b = (x == y) := by
    unfold Value.toFloat? at ha hb
    split at ha
    · split at hb
      · next hx hy =>
        obtain rfl := Option.some.inj ha
        obtain rfl := Option.some.inj hb
        rw [Value.same, hx, hy]
        rfl
      · cases hb
    · cases ha
  have hnext : ({ m with stack := below.push a } : Machine).stack = below.push a := rfl
  rw [equal, bind_eq (pop_top h), bind_eq (pop_top hnext), hsame]
  rfl

/-- A truth value is replaced by the other one. -/
theorem not_top {p : Bool} (h : m.stack = below.push (.ofBool p)) :
    perform .not m = .ok () { m with stack := below.push (.ofBool !p) } := by
  have hfalsey : (Value.ofBool p).isFalsey = !p := by cases p <;> rfl
  show (do let v ← pop; push (.ofBool v.isFalsey) : Exec Unit) m = _
  rw [bind_eq (pop_top h), hfalsey]
  rfl

end Exec

/-! ### Code ahead -/

/-- The code that is emitted for an operator behind its operands. -/
def Symbol.code (s : Symbol) : List Instr := ((Compile.binary? s).map Prod.snd).getD []

namespace Machine

open Exec

variable {m : Machine} {i : Instr} {code : List Instr} {below : Array Value} {a b : Value}

/-- The running function goes on with a list of instructions. -/
def Before (m : Machine) (code : List Instr) : Prop :=
  ∃ f, m.frames.back? = some f ∧
    ∀ k i, code[k]? = some i → (f.chunk.code[f.ip + k]?).bind Instr.decode? = some i

/-- The next instruction is the first of those in front. -/
theorem Before.next? (h : m.Before (i :: code)) : m.next? = some i := by
  obtain ⟨f, hback, hcode⟩ := h
  rw [Machine.next?, hback]
  exact hcode 0 i rfl

/-- Behind its first instruction the code goes on. -/
theorem Before.tail {f : Frame} {h : Heap} {t : Array Value} (hat : m.Before (i :: code))
    (hback : m.frames.back? = some f) : Before { m.fetched f h with stack := t } code := by
  obtain ⟨g, hg, hcode⟩ := hat
  obtain rfl : f = g := Option.some.inj (hback.symm.trans hg)
  refine ⟨{ f with ip := f.ip + 1 }, Array.back?_push, fun k j hj => ?_⟩
  rw [Nat.add_assoc, Nat.add_comm 1 k]
  exact hcode (k + 1) j hj

/-- The next instruction of a running function can be noted. -/
theorem Ready.noteInstruction (hm : m.Ready) : ∃ m', Exec.noteInstruction m = .ok () m' := by
  obtain ⟨W, O, hm, hp⟩ := hm
  cases hp with
  | @intro active rest below A outer base lands =>
    obtain ⟨text, htext⟩ := exists_instructionText hm lands
    have hlook {γ : Type} (f : Machine → γ) : look f m = .ok (f m) m := rfl
    have hframe : frame m = .ok active.frame m := by rw [frame, hm.back_frames rfl]
    rw [Exec.noteInstruction, bind_eq (hlook _)]
    split
    · rw [bind_eq hframe, bind_eq (hlook _), htext]
      exact ⟨_, rfl⟩
    · exact ⟨m, rfl⟩

/-- A running function notes and reads its next instruction, and carries it out. -/
theorem Ready.fetches (hm : m.Ready) (hnext : m.next? = some i) :
    ∃ f h, m.frames.back? = some f ∧ m.heap.Alike h ∧
      step m = (match i with
        | .return_ => return_
        | i => do
          perform i
          return .running : Exec Progress) (m.fetched f h) := by
  obtain ⟨m₁, hnote⟩ := hm.noteInstruction
  obtain ⟨h, halike, rfl⟩ := noteInstruction_eq_ok hnote
  cases hback : m.frames.back? with
  | none =>
    rw [Machine.next?, hback] at hnext
    cases hnext
  | some f =>
    rw [Machine.next?, hback, Option.bind_some, Option.bind_eq_some_iff] at hnext
    obtain ⟨w, hword, hdecode⟩ := hnext
    have hframe : frame { m with heap := h } = .ok f { m with heap := h } := by rw [frame, hback]
    have hfetch : fetch { m with heap := h } = .ok w (m.fetched f h) := by
      rw [fetch, bind_eq hframe]
      simp only [hword]
      rw [Machine.fetched, ← modify_last (fun g => { g with ip := f.ip + 1 }) hback]
      rfl
    refine ⟨f, h, rfl, halike, ?_⟩
    rw [step, bind_eq hnote, bind_eq hfetch, hdecode]
    cases i <;> rfl

/-- A running function carries its next instruction out. -/
theorem Ready.step_eq (hm : m.Ready) (hnext : m.next? = some i) (hi : i ≠ .return_) :
    ∃ f h, m.frames.back? = some f ∧ m.heap.Alike h ∧
      step m = (do perform i; return .running : Exec Progress) (m.fetched f h) := by
  obtain ⟨f, h, hback, halike, hstep⟩ := hm.fetches hnext
  refine ⟨f, h, hback, halike, hstep.trans ?_⟩
  cases i with
  | return_ => exact absurd rfl hi
  | _ => rfl

/-- An instruction that succeeds leaves a running function at the code behind it. -/
theorem Ready.carries {t : Array Value} (hm : m.Ready) (hat : m.Before (i :: code))
    (hi : i ≠ .return_)
    (hdone : ∀ f h, perform i (m.fetched f h) = .ok () { m.fetched f h with stack := t }) :
    ∃ m', m'.Ready ∧ m'.Before code ∧ m'.stack = t ∧ ∀ n, run (n + 1) m = run n m' := by
  obtain ⟨f, h, hback, -, hstep⟩ := hm.step_eq hat.next? hi
  have hstep : step m = .ok .running { m.fetched f h with stack := t } :=
    hstep.trans (bind_eq (hdone f h))
  have hready := does_step hm
  rw [hstep] at hready
  rcases hready with ⟨-, hready⟩ | ⟨hfinished, -⟩
  · refine ⟨_, hready, hat.tail hback, rfl, fun n => ?_⟩
    rw [run, bind_eq hstep]
  · cases hfinished

/-- An instruction that stops with an error stops the run. -/
theorem Ready.stops {e : RuntimeError} (hm : m.Ready) (hnext : m.next? = some i)
    (hi : i ≠ .return_) (hstop : ∀ f h, m.heap.Alike h →
      perform i (m.fetched f h) = .error (.error e) (m.fetched f h)) (n : Nat) :
    ∃ m', run (n + 1) m = .error (.error e) m' := by
  obtain ⟨f, h, -, halike, hstep⟩ := hm.step_eq hnext hi
  refine ⟨m.fetched f h, ?_⟩
  rw [run, bind_error (hstep.trans (bind_error (hstop f h halike)))]

/-- What is on the stack of a machine has a type, and keeps it in alike heaps. -/
theorem Ready.typeName {v : Value} (hm : m.Ready) (hv : v ∈ m.stack) :
    ∃ t, ∀ h, m.heap.Alike h → h.typeName v = .ok t := by
  obtain ⟨W, O, hm, -⟩ := hm
  obtain ⟨s, -, hs⟩ := exists_of_mem_left hm.stack (Array.mem_toList_iff.mpr hv)
  obtain ⟨t, ht⟩ := hm.fits.typeName hs.any
  refine ⟨t, fun h halike => ?_⟩
  have hobject (r : Handle) : h.object r = m.heap.object r := by
    rw [Heap.object, Heap.object, halike.object? r]
  rw [← ht, Heap.typeName, Heap.typeName, Heap.kind?, Heap.kind?]
  simp only [hobject]

/-! ### Operators -/

/-- The machine is at the code of an operator, with the operands on top of the stack. -/
structure At (m : Machine) (s : Symbol) (below : Array Value) (a b : Value) : Prop where
  code : m.Before s.code
  stack : m.stack = (below.push a).push b

/-- The code of an operator leaves a truth value in the place of the operands. -/
def Answers (m : Machine) (s : Symbol) (below : Array Value) (p : Bool) : Prop :=
  ∃ m', run s.code.length m = .ok .running m' ∧ m'.stack = below.push (.ofBool p)

variable {s : Symbol} {x y : Float} {p : Bool}

/-- An operator of one instruction. -/
theorem Ready.answers (hm : m.Ready) (hat : m.At s below a b) (hcode : s.code = [i])
    (hi : i ≠ .return_) (hdone : ∀ n : Machine, n.stack = (below.push a).push b →
      perform i n = .ok () { n with stack := below.push (.ofBool p) }) : m.Answers s below p := by
  have hbefore := hat.code
  rw [hcode] at hbefore
  obtain ⟨m', -, -, hstack, hrun⟩ := hm.carries hbefore hi fun f h => hdone _ hat.stack
  exact ⟨m', by rw [hcode]; exact hrun 0, hstack⟩

/-- An operator that is another one, negated. -/
theorem Ready.answers_not (hm : m.Ready) (hat : m.At s below a b) (hcode : s.code = [i, .not])
    (hi : i ≠ .return_) (hdone : ∀ n : Machine, n.stack = (below.push a).push b →
      perform i n = .ok () { n with stack := below.push (.ofBool p) }) :
    m.Answers s below !p := by
  have hbefore := hat.code
  rw [hcode] at hbefore
  obtain ⟨m₁, hm₁, hbefore, hstack, hrun⟩ := hm.carries hbefore hi fun f h => hdone _ hat.stack
  obtain ⟨m', -, -, hstack', hrun'⟩ := hm₁.carries (t := below.push (.ofBool !p)) hbefore
    (fun h => by cases h) fun f h => not_top hstack
  exact ⟨m', by rw [hcode]; exact (hrun 1).trans (hrun' 0), hstack'⟩

/-- Operands that are not both numbers stop a comparison of order. -/
theorem Ready.refuses (hm : m.Ready) (hat : m.At s below a b) {operator : Symbol}
    {f : Float → Float → Value} (hcode : s.code = i :: code) (hi : i ≠ .return_)
    (hperform : perform i = arithmetic operator f) (hno : a.toFloat? = none ∨ b.toFloat? = none) :
    ∃ ta tb m', m.heap.typeName a = .ok ta ∧ m.heap.typeName b = .ok tb ∧
      run s.code.length m = .error (.error (.typeMismatch operator .numbers [ta, tb])) m' := by
  obtain ⟨ta, hta⟩ := hm.typeName (v := a) (by rw [hat.stack]; simp)
  obtain ⟨tb, htb⟩ := hm.typeName (v := b) (by rw [hat.stack]; simp)
  have hbefore := hat.code
  rw [hcode] at hbefore
  obtain ⟨m', hstop⟩ := hm.stops hbefore.next? hi (fun g h halike => by
    rw [hperform]
    exact arithmetic_refused operator f hat.stack hno (hta h halike) (htb h halike)) code.length
  exact ⟨ta, tb, m', hta _ (.refl _), htb _ (.refl _), by rw [hcode]; exact hstop⟩

/-- At the code of a comparison a session replaces two numbers by its answer: the strict ones are
those of floating point, and a weak one holds exactly if the strict one does, or the operands are
equal, or one of them is not a number by the rules of floating point. Other operands stop a weak
comparison with an error that names their types. -/
theorem sessions_compare_weakly (settings : Settings) (journal : Journal) (sink : Sink)
    (hm : Reached settings journal sink .running m) (hat : m.At s below a b) :
    (∀ x y, a.toFloat? = some x → b.toFloat? = some y →
      (s = .less → m.Answers s below (x < y)) ∧
      (s = .greater → m.Answers s below (x > y)) ∧
      (s = .equal → m.Answers s below (x == y)) ∧
      (s = .lessEqual → m.Answers s below (x < y ∨ x == y ∨ x.isNaN ∨ y.isNaN)) ∧
      (s = .greaterEqual → m.Answers s below (x > y ∨ x == y ∨ x.isNaN ∨ y.isNaN))) ∧
    (a.toFloat? = none ∨ b.toFloat? = none → s = .lessEqual ∨ s = .greaterEqual →
      ∃ operator ta tb m', m.heap.typeName a = .ok ta ∧ m.heap.typeName b = .ok tb ∧
        run s.code.length m = .error (.error (.typeMismatch operator .numbers [ta, tb])) m') := by
  have hready : m.Ready := hm.inPhase
  refine ⟨fun x y hx hy => ⟨?_, ?_, ?_, ?_, ?_⟩, fun hno hs => ?_⟩
  · rintro rfl
    exact hready.answers (i := .less) hat rfl (fun h => by cases h) fun n hn =>
      arithmetic_top .less (fun x y => .ofBool (x < y)) hn hx hy
  · rintro rfl
    exact hready.answers (i := .greater) hat rfl (fun h => by cases h) fun n hn =>
      arithmetic_top .greater (fun x y => .ofBool (x > y)) hn hx hy
  · rintro rfl
    exact hready.answers (i := .equal) hat rfl (fun h => by cases h) fun n hn =>
      equal_top hn hx hy
  · rintro rfl
    have hanswers := hready.answers_not (i := .greater) hat rfl (fun h => by cases h) fun n hn =>
      arithmetic_top .greater (fun x y => .ofBool (x > y)) hn hx hy
    rwa [← decide_not, decide_eq_decide.mpr (Number.not_lt_iff x y)] at hanswers
  · rintro rfl
    have hanswers := hready.answers_not (i := .less) hat rfl (fun h => by cases h) fun n hn =>
      arithmetic_top .less (fun x y => .ofBool (x < y)) hn hx hy
    rwa [← decide_not, decide_eq_decide.mpr (Number.not_gt_iff x y)] at hanswers
  · rcases hs with rfl | rfl
    · exact ⟨.greater, hready.refuses (i := .greater) (f := fun x y => .ofBool (x > y)) hat rfl
        (fun h => by cases h) rfl hno⟩
    · exact ⟨.less, hready.refuses (i := .less) (f := fun x y => .ofBool (x < y)) hat rfl
        (fun h => by cases h) rfl hno⟩

/-- What is not a number is not less than one and not equal to it, yet less or equal. -/
theorem unordered_less_or_equal :
    ((create Settings.standard Journal.off Sink.unlimited).toOption.map fun m =>
      (m.interpret 100 "print 0/0 <= 1; print 0/0 < 1; print 0/0 == 1;").2.sink.text) =
      some "true\nfalse\nfalse\n" := by decide +kernel

/-- What is not a number is compared with itself. -/
theorem unordered_answers : ∃ (m : Machine) (below : Array Value),
    m.At .lessEqual below ⟨Value.canonicalNaN⟩ ⟨Value.canonicalNaN⟩ ∧
      m.Answers .lessEqual below true := by
  have hruns : (create Settings.standard Journal.off Sink.unlimited).toOption.any (fun m =>
      let loaded := m.load "print 0/0 <= 0/0;"
      let at_ := (loaded.2.resume 6).2
      decide (loaded.1.phase? = some .running) &&
        decide ((loaded.2.resume 6).1.phase? = some .running) &&
        at_.stack == (at_.stack.pop.pop.push ⟨Value.canonicalNaN⟩).push ⟨Value.canonicalNaN⟩ &&
        at_.frames.back?.any fun f =>
          decide ((f.chunk.code[f.ip]?).bind Instr.decode? = some .greater) &&
            decide ((f.chunk.code[f.ip + 1]?).bind Instr.decode? = some .not)) = true := by
    decide +kernel
  obtain ⟨m, hcreated, hruns⟩ := exists_created hruns
  simp only [Bool.and_eq_true, decide_eq_true_eq, beq_iff_eq, and_assoc] at hruns
  obtain ⟨hload, hresume, hstack, hcode⟩ := hruns
  have hreached : Reached Settings.standard Journal.off Sink.unlimited .running
      ((m.load "print 0/0 <= 0/0;").2.resume 6).2 :=
    ((Reached.created hcreated).loaded rfl hload).resumed rfl hresume
  generalize ((m.load "print 0/0 <= 0/0;").2.resume 6).2 = at_ at *
  obtain ⟨f, hback, hcode⟩ := (Option.any_eq_true _ _).mp hcode
  simp only [Bool.and_eq_true, decide_eq_true_eq] at hcode
  have hat : at_.At .lessEqual at_.stack.pop.pop ⟨Value.canonicalNaN⟩ ⟨Value.canonicalNaN⟩ := by
    refine ⟨⟨f, hback, fun k i hi => ?_⟩, hstack⟩
    match k, hi with
    | 0, hi => exact hcode.1.trans hi
    | 1, hi => exact hcode.2.trans hi
  have hnumber : Value.toFloat? ⟨Value.canonicalNaN⟩ = some (Float.ofBits Value.canonicalNaN) := by
    rw [Value.toFloat?, if_pos (by decide)]
  have hnan : (Float.ofBits Value.canonicalNaN).isNaN = true := by decide +kernel
  obtain ⟨hnumbers, -⟩ := sessions_compare_weakly Settings.standard Journal.off Sink.unlimited
    hreached hat
  obtain ⟨-, -, -, hweak, -⟩ := hnumbers _ _ hnumber hnumber
  exact ⟨at_, _, hat, by simpa [hnan] using hweak rfl⟩

end Machine

end ScriptMachine
