import ScriptMachine.Proofs.Compile.Variables

/-!
# Loops

A loop jumps back to where it started, so its code leads from the stack at its start to the same
stack. The four forms of a counting loop differ in whether there is a condition and a step; the
step stands before the body in the code and is jumped over at first.
-/

namespace ScriptMachine.Compile

variable {W W' W'' : World} {s s' s'' : State} {before : Heap} {inner : Parsers}

/-! ### Jumps back -/

/-- A jump back over all the code of a step. -/
theorem Carries.loopBack {w : List UInt32} {start : Nat} (h : Carries before W W' s s' w)
    (hl : s'.Looped start () s'') (hstart : start = s.draft.chunk.code.size) :
    w.length + 1 ≤ Chunk.maxDistance ∧
      Carries before W W' s s'' (w ++ [jumpWord .loop (w.length + 1)]) := by
  obtain ⟨hnear, he⟩ := hl
  have hsize : s'.draft.chunk.code.size + 1 - start = w.length + 1 := by
    rw [hstart, h.size]
    omega
  rw [hsize] at hnear he
  exact ⟨hnear, h.trans (he.carries h.ready)⟩

/-- A jump back leaves the picture as it is. -/
theorem State.Looped.le {start : Nat} {V : View} (h : s.Looped start () s')
    (hV : (s'.view W).Le V) : (s.view W).Le V := by
  obtain ⟨-, lines, -, rfl⟩ := h
  exact hV

/-- What the code has shown before it shows behind one more word. -/
theorem State.Emitted.le {α : Type} {w : UInt32} {a : α} {V : View} (h : s.Emitted w a s')
    (hV : (s'.view W).Le V) : (s.view W).Le V := by
  obtain ⟨lines, -, rfl⟩ := h
  exact hV

/-- The distance of a jump back in another form. -/
theorem State.Looped.of_distance {start distance : Nat} (h : s.Looped start () s')
    (hdistance : s.draft.chunk.code.size + 1 - start = distance) :
    distance ≤ Chunk.maxDistance ∧ s.Emitted (jumpWord .loop distance) () s' := hdistance ▸ h

/-- A loop with its condition first. -/
theorem writes_loop {K : World → State → Prop} [Stable K] {x y : Compiler Unit}
    {Q R : View → List UInt32 → Prop} (hx : Writes before K x fun _ => Q)
    (hy : Writes before K y fun _ => R) : Writes before K (do
      let start ← here
      x
      let stop ← emitJump .jumpIfFalse
      y
      emitLoop start
      patchJump stop : Compiler Unit) fun _ V code => ∃ test body,
        body.length + 1 ≤ Chunk.maxDistance ∧
          test.length + body.length + 2 ≤ Chunk.maxDistance ∧ Q V test ∧ R V body ∧
            code = test ++ jumpWord .jumpIfFalse (body.length + 1) :: body ++
              [jumpWord .loop (test.length + body.length + 2)] := by
  intro s hl
  refine (does_here hl).bind fun start s₀ hl₀ _ hstart => ?_
  obtain ⟨rfl, rfl⟩ := hstart
  refine (hx s₀ hl₀).bind fun _ s₁ hl₁ hlater₁ htest => ?_
  refine (does_emitJump hl₁).bind fun stop s₂ hl₂ hlater₂ hjump => ?_
  obtain ⟨rfl, hjump⟩ := hjump
  refine (hy s₂ hl₂).bind fun _ s₃ hl₃ hlater₃ hbody => ?_
  refine (does_emitLoop hl₃).bind fun _ s₄ hl₄ hlater₄ hloop => ?_
  refine (does_patchJump hl₄).imp fun _ s₅ _ hlater₅ hpatch W hr hk hclean => ?_
  have hclean₃ := (hlater₄.trans hlater₅).clean hclean
  have hclean₁ := (hlater₂.trans hlater₃).clean hclean₃
  obtain ⟨W₁, test, hw⟩ := htest W hr hk hclean₁
  have h₂ : Carries before W₁ W₁ s₁ s₂ _ := hjump.carries hw.ready
  have hfront := hw.toCarries.trans h₂
  obtain ⟨W₃, body, hw'⟩ := hbody W₁ h₂.ready (Stable.carry hfront hr hk) hclean₃
  obtain ⟨hnear, h₄⟩ := (hfront.trans hw'.toCarries).loopBack hloop rfl
  have hlength : (test ++ [(Instr.jumpIfFalse 0xFFFF).encode] ++ body).length + 1 =
      test.length + body.length + 2 := by
    simp
    omega
  rw [hlength] at hnear h₄
  have hcode : test ++ [(Instr.jumpIfFalse 0xFFFF).encode] ++ body ++
      [jumpWord .loop (test.length + body.length + 2)] = test ++
        (Instr.jumpIfFalse 0xFFFF).encode :: (body ++
          [jumpWord .loop (test.length + body.length + 2)]) := by
    simp
  rw [hcode] at h₄
  obtain ⟨hnear', h₅⟩ := Carries.patch .jumpIfFalse h₄ hw.size hpatch
  have hlength' : (body ++ [jumpWord .loop (test.length + body.length + 2)]).length =
      body.length + 1 := by simp
  rw [hlength'] at hnear' h₅
  refine ⟨W₃, _, h₅, fun V hV => ⟨test, body, hnear', hnear, ?_, ?_, by simp⟩⟩
  · have hV₃ := hloop.le (hpatch.le hV)
    exact hw.runs V (hjump.le ((hw'.view_le h₂.ready).trans hV₃))
  · exact hw'.runs V (hloop.le (hpatch.le hV))

/-! ### Statements with conditions -/

/-- Code in a statement, on top of the locals. -/
theorem Through.whole_of {K : World → State → Prop} {pre post : List Slot} {x : Compiler Unit}
    (h : Turns before K x pre post) : Writes before K x fun _ => Whole pre post :=
  h.imp fun _ _ _ => Through.whole

/-- The value of a condition is dropped, and a statement executed. -/
theorem writes_dropThen {x : Compiler Unit} (hx : Executes before x) :
    Writes before AllSettled (do
      emit .pop
      x : Compiler Unit) fun _ => Whole [.value] [] :=
  (Through.whole_of (turns_plain 1 0 0 fun _ => .pop)).bind (fun _ => hx)
    fun _ _ _ _ _ h h' => Fragment.append h h'

/-- A condition pushes its value. -/
theorem writes_condition {open_ : Expectation} (hn : Nests before inner.expression) :
    Turns before Always (condition inner open_) [] [.value] :=
  turns_expect.bind fun _ => (hn.push _ []).bind fun _ => turns_expect

/-- Where code was written the stack has at least slot zero. -/
theorem Writes.inhabited {α : Type} {K : World → State → Prop} {x : Compiler α}
    {Q : α → View → List UInt32 → Prop} (hx : Writes before K x Q) :
    Writes before K x fun a V w => V.slots ≠ [] ∧ Q a V w := by
  refine fun s hl => (hx s hl).imp fun a s' _ _ hc W hr hk hclean => ?_
  obtain ⟨W', w, hw⟩ := hc W hr hk hclean
  exact ⟨W', w, hw.toCarries, fun V hV => ⟨hw.ready.slots_ne_nil hV, hw.runs V hV⟩⟩

/-- A loop, and the end of the value that its condition leaves. -/
theorem executes_loop {x y : Compiler Unit}
    (hx : Writes before AllSettled x fun _ => Whole [] [.value])
    (hy : Writes before AllSettled y fun _ => Whole [.value] []) : Executes before (do
      let start ← here
      x
      let stop ← emitJump .jumpIfFalse
      y
      emitLoop start
      patchJump stop
      emit .pop : Compiler Unit) := by
  have hpop : Writes before AllSettled (emit .pop) fun _ => Whole [.value] [] :=
    Through.whole_of (turns_plain 1 0 0 fun _ => .pop)
  have h := (writes_loop hx hy).inhabited.bind (S := fun _ => Whole [] []) (fun _ => hpop) ?_
  · simpa only [Executes, bind_assoc] using h
  · rintro _ _ V v w ⟨hne, test, body, hnear, hnear', htest, hbody, rfl⟩ hw
    exact (Fragment.loop hne htest hbody hnear hnear').append hw

/-- A loop leaves the height, if its body does. -/
theorem executes_while (hn : Nests before inner.expression) (hs : Executes before inner.statement) :
    Executes before (whileStatement inner) := by
  have htest : Turns before Always (condition inner .whileOpen) [] [.value] := writes_condition hn
  have h := executes_loop (Through.whole_of (Writes.always htest)) (writes_dropThen hs)
  simpa only [whileStatement, bind_assoc] using h

/-- A loop with its condition behind leaves the height, if its body does. -/
theorem executes_doWhile (hn : Nests before inner.expression)
    (hs : Executes before inner.statement) : Executes before (doWhileStatement inner) := by
  have hcondition : Turns before AllSettled (do
      expectKeyword .while_ .doWhile
      condition inner .whileOpen
      expect .semicolon .doWhileEnd) [] [.value] :=
    Turns.bind (turns_of_reads fun _ => does_expectKeyword) fun _ =>
      Turns.bind (Writes.always (writes_condition hn)) fun _ => turns_expect
  have hx : Writes before AllSettled (do
      inner.statement
      expectKeyword .while_ .doWhile
      condition inner .whileOpen
      expect .semicolon .doWhileEnd) fun _ => Whole [] [.value] :=
    Writes.bind hs (fun _ => Through.whole_of hcondition) fun _ _ _ _ _ => Fragment.append
  have h := executes_loop hx (Through.whole_of (turns_plain 1 0 0 fun _ => .pop))
  simpa only [doWhileStatement, bind_assoc] using h

/-! ### Counting loops -/

/-- The first clause may leave a local. -/
theorem declares_forStart (hn : Nests before inner.expression) :
    Declares before (forStart inner) := by
  refine (executes_of_reads fun _ => does_accept).declares.bind fun empty => ?_
  cases empty with
  | true => exact (executes_of_reads fun _ => does_pure_reads).declares
  | false =>
    refine (executes_of_reads fun _ => does_acceptKeyword).declares.bind fun declared => ?_
    cases declared with
    | true => exact declares_let hn
    | false =>
      refine (Turns.executes ?_).declares
      exact (hn.push _ []).bind fun _ => turns_expect.bind fun _ => turns_plain 1 0 0 fun _ => .pop

/-- The condition of a counting loop was compiled, with the jump at `stop` that leaves the loop
and the end of the condition's value. -/
inductive Conditioned (before : Heap) (W : World) (s s' : State) : Option Nat → Prop
  | none (carries : Carries before W W s s' []) : Conditioned before W s s' none
  | some {W' : World} {test : List UInt32}
      (carries : Carries before W W' s s'
        (test ++ (Instr.jumpIfFalse 0xFFFF).encode :: [Instr.pop.encode]))
      (runs : ∀ V, (s'.view W').Le V → Whole [] [.value] V test) :
      Conditioned before W s s' (some (s.draft.chunk.code.size + test.length))

/-- The condition of a counting loop is pushed and dropped, if there is one. -/
theorem does_forCondition (hn : Nests before inner.expression) (hl : s.Live before) :
    Does before s (forCondition inner s) fun stop s' =>
      ∀ W, s.Ready W → s'.errors = #[] → Conditioned before W s s' stop := by
  refine (does_accept hl).bind fun empty s₁ hl₁ _ hm => ?_
  cases empty with
  | true =>
    exact does_pure hl₁ fun W hr _ => .none (hm.carries hr)
  | false =>
    have htest : Turns before Always (do
        inner.expression .assignment
        expect .semicolon .loopConditionEnd) [] [.value] :=
      (hn.push _ []).bind fun _ => turns_expect
    have hsplit : (do
        expression inner
        expect .semicolon .loopConditionEnd
        let stop ← emitJump .jumpIfFalse
        emit .pop
        return some stop : Compiler (Option Nat)) = (do
        inner.expression .assignment
        expect .semicolon .loopConditionEnd) >>= fun _ => (do
        let stop ← emitJump .jumpIfFalse
        emit .pop
        return some stop) := by simp only [bind_assoc, expression]
    show Does before s₁ ((do
        expression inner
        expect .semicolon .loopConditionEnd
        let stop ← emitJump .jumpIfFalse
        emit .pop
        return some stop : Compiler (Option Nat)) s₁) _
    rw [hsplit]
    refine (htest s₁ hl₁).bind fun _ s₂ hl₂ _ ht => ?_
    refine (does_emitJump hl₂).bind fun stop s₃ hl₃ hlater₃ hjump => ?_
    obtain ⟨rfl, hjump⟩ := hjump
    refine (does_emit hl₃).bind fun _ s₄ hl₄ hlater₄ hpop => does_pure hl₄ fun W hr hclean => ?_
    have h₁ : Carries before W W s s₁ [] := hm.carries hr
    obtain ⟨W', test, hw⟩ := ht W h₁.ready trivial ((hlater₃.trans hlater₄).clean hclean)
    have h₃ : Carries before W' W' s₂ s₃ _ := hjump.carries hw.ready
    have h₄ : Carries before W' W' s₃ s₄ _ := hpop.carries h₃.ready
    have hsize : s₂.draft.chunk.code.size = s.draft.chunk.code.size + test.length :=
      (h₁.trans hw.toCarries).size
    rw [hsize]
    refine .some ?_ fun V hV => (hw.runs V (hjump.le (hpop.le hV))).whole
    simpa using (h₁.trans hw.toCarries).trans (h₃.trans h₄)

/-- The last clause of a counting loop was compiled, where the loop starts at `start`: with no
clause the body jumps back to the start, otherwise to the clause. -/
inductive Stepped (before : Heap) (W : World) (s s' : State) (start : Nat) : Nat → Prop
  | none (carries : Carries before W W s s' []) : Stepped before W s s' start start
  | some {W' : World} {step : List UInt32}
      (near : s.draft.chunk.code.size + step.length + 2 - start ≤ Chunk.maxDistance)
      (carries : Carries before W W' s s' (jumpWord .jump (step.length + 1) :: step ++
        [jumpWord .loop (s.draft.chunk.code.size + step.length + 2 - start)]))
      (runs : ∀ V, (s'.view W').Le V → Whole [] [] V step) :
      Stepped before W s s' start (s.draft.chunk.code.size + 1)

/-- The step of a counting loop is jumped over, if there is one. -/
theorem does_forStep (hn : Nests before inner.expression) {start : Nat} (hl : s.Live before) :
    Does before s (forStep inner start s) fun back s' =>
      ∀ W, s.Ready W → s'.errors = #[] → Stepped before W s s' start back := by
  refine (does_accept hl).bind fun empty s₁ hl₁ _ hm => ?_
  cases empty with
  | true => exact does_pure hl₁ fun W hr _ => .none (hm.carries hr)
  | false =>
    have hstep : Turns before Always (do
        inner.expression .assignment
        emit .pop
        expect .rightParen .forClose) [] [] :=
      (hn.push _ []).bind fun _ => (turns_plain 1 0 0 fun _ => .pop).bind fun _ => turns_expect
    have hsplit : (do
        let body ← emitJump .jump
        let step ← here
        expression inner
        emit .pop
        expect .rightParen .forClose
        emitLoop start
        patchJump body
        return step : Compiler Nat) = emitJump .jump >>= fun body => here >>= fun step => (do
        inner.expression .assignment
        emit .pop
        expect .rightParen .forClose) >>= fun _ => (do
        emitLoop start
        patchJump body
        return step) := by simp only [bind_assoc, expression]
    show Does before s₁ ((do
        let body ← emitJump .jump
        let step ← here
        expression inner
        emit .pop
        expect .rightParen .forClose
        emitLoop start
        patchJump body
        return step : Compiler Nat) s₁) _
    rw [hsplit]
    refine (does_emitJump hl₁).bind fun body s₂ hl₂ _ hjump => ?_
    obtain ⟨rfl, hjump⟩ := hjump
    refine (does_here hl₂).bind fun step s₂' hl₂' _ hhere => ?_
    obtain ⟨rfl, rfl⟩ := hhere
    refine (hstep s₂' hl₂').bind fun _ s₃ hl₃ hlater₃ ht => ?_
    refine (does_emitLoop hl₃).bind fun _ s₄ hl₄ hlater₄ hloop => ?_
    refine (does_patchJump hl₄).bind fun _ s₅ hl₅ hlater₅ hpatch =>
      does_pure hl₅ fun W hr hclean => ?_
    have h₁ : Carries before W W s s₁ [] := hm.carries hr
    have h₂ : Carries before W W s₁ s₂' _ := hjump.carries h₁.ready
    obtain ⟨W', step, hw⟩ := ht W h₂.ready trivial ((hlater₄.trans hlater₅).clean hclean)
    have hfront := (h₁.trans h₂).trans hw.toCarries
    have hsize₁ : s₁.draft.chunk.code.size = s.draft.chunk.code.size := by rw [hm.draft]
    have hsize₂ : s₂'.draft.chunk.code.size = s.draft.chunk.code.size + 1 := (h₁.trans h₂).size
    have hsize₃ : s₃.draft.chunk.code.size + 1 - start =
        s.draft.chunk.code.size + step.length + 2 - start := by
      rw [hfront.size]
      simp
      omega
    have hle (V : View) (hV : (s₅.view W').Le V) : (s₃.view W').Le V := hloop.le (hpatch.le hV)
    obtain ⟨hnear, hback⟩ := hloop
    rw [hsize₃] at hnear hback
    have hall := hfront.trans (hback.carries hw.ready)
    obtain ⟨-, hdone⟩ := Carries.patch (v := []) (w := step ++
      [jumpWord .loop (s.draft.chunk.code.size + step.length + 2 - start)]) .jump (by simpa using hall)
      (by simp [hsize₁]) hpatch
    rw [hsize₂]
    refine .some hnear ?_ fun V hV => (hw.runs V (hle V hV)).whole
    simpa using hdone

/-- A counting loop after its first clause. -/
def countingLoop (inner : Parsers) : Compiler Unit := do
  let start ← here
  let stop ← forCondition inner
  let back ← forStep inner start
  inner.statement
  emitLoop back
  match stop with
  | some stop =>
    patchJump stop
    emit .pop
  | none => pure ()

/-- A counting loop behind its first clause leaves the height. -/
theorem executes_countingLoop (hn : Nests before inner.expression)
    (hs : Executes before inner.statement) : Executes before (countingLoop inner) := by
  intro s hl
  refine (does_here hl).bind fun start s₀ hl₀ _ hstart => ?_
  obtain ⟨rfl, rfl⟩ := hstart
  refine (does_forCondition hn hl₀).bind fun stop s₁ hl₁ _ hcondition => ?_
  refine (does_forStep hn hl₁).bind fun back s₂ hl₂ hlater₂ hstep => ?_
  refine (hs s₂ hl₂).bind fun _ s₃ hl₃ hlater₃ hbody => ?_
  refine (does_emitLoop hl₃).bind fun _ s₄ hl₄ hlater₄ hloop => ?_
  have hclean₁ (hclean : s₄.errors = #[]) : s₁.errors = #[] :=
    (hlater₂.trans (hlater₃.trans hlater₄)).clean hclean
  have hclean₂ (hclean : s₄.errors = #[]) : s₂.errors = #[] :=
    (hlater₃.trans hlater₄).clean hclean
  have hclean₃ (hclean : s₄.errors = #[]) : s₃.errors = #[] := hlater₄.clean hclean
  cases stop with
  | none =>
    refine does_pure hl₄ fun W hr hk hclean => ?_
    cases hcondition W hr (hclean₁ hclean) with
    | none h₁ =>
      cases hstep W h₁.ready (hclean₂ hclean) with
      | none h₂ =>
        have hfront := h₁.trans h₂
        obtain ⟨W', body, hw⟩ := hbody W h₂.ready (Stable.carry hfront hr hk) (hclean₃ hclean)
        obtain ⟨hnear, hall⟩ := (hfront.trans hw.toCarries).loopBack hloop rfl
        refine ⟨W', _, hall, fun V hV => Fragment.forever ?_ hnear⟩
        exact hw.runs V (hloop.le hV)
      | @some W₁ step hnear₂ h₂ hruns =>
        have hfront := h₁.trans h₂
        obtain ⟨W', body, hw⟩ := hbody W₁ h₂.ready (Stable.carry hfront hr hk) (hclean₃ hclean)
        have hsize₁ : s₁.draft.chunk.code.size = s₀.draft.chunk.code.size := h₁.size
        have hsize₃ := (h₂.trans hw.toCarries).size
        simp only [List.length_append, List.length_cons, List.length_nil] at hsize₃
        have hfirst : s₁.draft.chunk.code.size + step.length + 2 - s₀.draft.chunk.code.size =
            step.length + 2 := by omega
        have hlast : s₃.draft.chunk.code.size + 1 - (s₁.draft.chunk.code.size + 1) =
            step.length + body.length + 2 := by omega
        have hle (V : View) (hV : (s₄.view W').Le V) : (s₂.view W₁).Le V :=
          (hw.view_le h₂.ready).trans (hloop.le hV)
        rw [hfirst] at hnear₂ hfront
        obtain ⟨hnear, hback⟩ := hloop.of_distance hlast
        refine ⟨W', _, (hfront.trans hw.toCarries).trans (hback.carries hw.ready), fun V hV => ?_⟩
        have hloops := Fragment.stepLoop (B := .plain (V.slots ++ [])) (hruns V (hle V hV))
          (hw.runs V (hloop.le hV)) hnear₂ hnear
        simpa [Whole] using hloops
  | some stop =>
    refine (does_patchJump hl₄).bind fun _ s₅ hl₅ hlater₅ hpatch => ?_
    refine (does_emit hl₅).imp fun _ s₆ _ hlater₆ hpop W hr hk hclean => ?_
    have hclean := (hlater₅.trans hlater₆).clean hclean
    have hleave (V : View) (hne : V.slots ≠ []) : Whole [.value] [] V [Instr.pop.encode] := by
      have := Effect.plain (Γ := V.context) (g := none) .pop hne
      simpa [Whole, withValues] using Fragment.instr this
    cases hcondition W hr (hclean₁ hclean) with
    | @some W₁ test h₁ htest =>
      have hsize₁ := h₁.size
      simp only [List.length_append, List.length_cons, List.length_nil] at hsize₁
      cases hstep W₁ h₁.ready (hclean₂ hclean) with
      | none h₂ =>
        have hfront := h₁.trans h₂
        obtain ⟨W', body, hw⟩ := hbody W₁ h₂.ready (Stable.carry hfront hr hk) (hclean₃ hclean)
        have hsize₃ := (hfront.trans hw.toCarries).size
        simp only [List.length_append, List.length_cons, List.length_nil] at hsize₃
        have hback : s₃.draft.chunk.code.size + 1 - s₀.draft.chunk.code.size =
            test.length + (Instr.pop.encode :: body).length + 2 := by
          rw [List.length_cons]
          omega
        obtain ⟨hnear, hback⟩ := hloop.of_distance hback
        have h₄ := (hfront.trans hw.toCarries).trans (hback.carries hw.ready)
        rw [List.append_nil, List.append_assoc, List.append_assoc, List.cons_append,
          List.cons_append] at h₄
        obtain ⟨hnear', h₅⟩ := Carries.patch .jumpIfFalse h₄ rfl hpatch
        refine ⟨W', _, h₅.trans (hpop.carries h₅.ready), fun V hV => ?_⟩
        have hV₄ := hpatch.le (hpop.le hV)
        have hne := h₅.ready.slots_ne_nil (hpop.le hV)
        have hfirst : Whole [.value] [] V (Instr.pop.encode :: body) :=
          Fragment.append (hleave V hne) (hw.runs V (hloop.le hV₄))
        have htest' := htest V ((h₂.view_le h₁.ready).trans
          ((hw.view_le h₂.ready).trans (hloop.le hV₄)))
        have hloops := Fragment.loop hne htest' hfirst (by simpa using hnear') hnear
        have hall := hloops.append (hleave V hne)
        simpa [Whole] using hall
      | @some W₂ step hnear₂ h₂ hruns =>
        have hfront := h₁.trans h₂
        obtain ⟨W', body, hw⟩ := hbody W₂ h₂.ready (Stable.carry hfront hr hk) (hclean₃ hclean)
        have hsize₃ := (h₂.trans hw.toCarries).size
        simp only [List.length_append, List.length_cons, List.length_nil] at hsize₃
        have hagain : s₁.draft.chunk.code.size + step.length + 2 - s₀.draft.chunk.code.size =
            test.length + [Instr.pop.encode].length + step.length + 3 := by
          rw [List.length_singleton]
          omega
        have hlast : s₃.draft.chunk.code.size + 1 - (s₁.draft.chunk.code.size + 1) =
            step.length + body.length + 2 := by omega
        rw [hagain] at hnear₂ hfront
        obtain ⟨-, hback⟩ := hloop.of_distance hlast
        have h₄ := (hfront.trans hw.toCarries).trans (hback.carries hw.ready)
        rw [List.append_assoc, List.append_assoc, List.append_assoc, List.cons_append] at h₄
        obtain ⟨hnear', h₅⟩ := Carries.patch .jumpIfFalse h₄ rfl hpatch
        have hover : ([Instr.pop.encode] ++ (jumpWord .jump (step.length + 1) :: step ++
            [jumpWord .loop (test.length + [Instr.pop.encode].length + step.length + 3)] ++
              (body ++ [jumpWord .loop (step.length + body.length + 2)]))).length =
            [Instr.pop.encode].length + step.length + body.length + 3 := by
          simp
          omega
        rw [hover] at hnear' h₅
        refine ⟨W', _, h₅.trans (hpop.carries h₅.ready), fun V hV => ?_⟩
        have hV₄ := hpatch.le (hpop.le hV)
        have hV₂ := (hw.view_le h₂.ready).trans (hloop.le hV₄)
        have hne := h₅.ready.slots_ne_nil (hpop.le hV)
        have hloops := Fragment.testLoop hne (htest V ((h₂.view_le h₁.ready).trans hV₂))
          (hleave V hne) (hruns V hV₂) (hw.runs V (hloop.le hV₄)) hnear' hnear₂
        have hall := hloops.append (hleave V hne)
        simpa [Whole] using hall

/-- A counting loop is a scope with its first clause and the loop. -/
theorem forStatement_eq (inner : Parsers) : forStatement inner = (do
    beginScope
    expect .leftParen .forOpen >>= fun _ => forStart inner >>= fun _ => countingLoop inner
    endScope) := by
  unfold forStatement countingLoop
  simp only [bind_assoc]
  refine bind_congr fun _ => bind_congr fun _ => bind_congr fun _ => bind_congr fun start => ?_
  refine bind_congr fun stop => ?_
  cases stop <;> simp

/-- A counting loop leaves the height. -/
theorem executes_for (hn : Nests before inner.expression) (hs : Executes before inner.statement) :
    Executes before (forStatement inner) := by
  rw [forStatement_eq]
  exact ((executes_of_reads fun _ => does_expect).declares.bind fun _ =>
    (declares_forStart hn).bind fun _ => (executes_countingLoop hn hs).declares).scoped

end ScriptMachine.Compile
