import ScriptMachine.Heap.Object
import ScriptMachine.Proofs.Code.Layout

/-!
# Every fragment has a valid layout

One lemma for each form of fragment: valid layouts of its parts make a valid layout of the c,
in which its jumps land where the shapes agree.

A function's code is a fragment that is entered with the callee and the arguments on the stack,
followed by a return of null or of slot zero. Its layout has no exit.
-/

namespace ScriptMachine

namespace Layout

variable {Γ : CodeContext} {a b : Layout} {A B C : Shape} {e : Option Shape} {S : List Slot}
  {g : Option String}


/-- The layout of a jump by a number of words. -/
def jumpAt (jump : UInt16 → Instr) (distance : Nat) (A : Shape) : UInt32 × Option Shape :=
  (jumpWord jump distance, some A)

/-- A distance that is short enough fits its operand. -/
theorem toNat_distance {n : Nat} (h : n ≤ Chunk.maxDistance) : n.toUInt16.toNat = n := by
  have : n < 2 ^ 16 := Nat.lt_succ_of_le h
  exact UInt16.toNat_ofNat_of_lt this

/-- No code gets from a shape to one that it fits. -/
theorem Valid.nil (h : A.Fits B) : Valid Γ [] A (some B) :=
  ⟨.inr ⟨rfl, B, rfl, h⟩, stepsAt_nil, .nil⟩

/-- Valid code behind valid code is valid. -/
theorem Valid.append (ha : Valid Γ a A (some B)) (hb : Valid Γ b B e) :
    Valid Γ (a ++ b) A e := by
  obtain ⟨hbl, hbs⟩ := hb.within (c := a ++ b) (p := a) (q := []) (e := e)
    (by simp) fun E hE => .inr ⟨by simp, E, hE, .refl E⟩
  obtain ⟨hal, has⟩ := ha.inside (c := a ++ b) (p := []) (q := b) (e := e) rfl
    (by simpa using hbl)
  exact ⟨hal, has.append (by simpa using hbs), ha.tiled.append hb.tiled⟩

/-- An instruction with its effect is valid. -/
theorem Valid.instr {i : Instr} (h : Effect Γ i A B) : Valid Γ [(i.encode, some A)] A (some B) := by
  refine ⟨lands_at (p := []) rfl rfl rfl, .cons (.effect h (lands_end rfl)) stepsAt_nil,
    .instr ?_ .nil⟩
  rintro k rfl
  cases h with
  | plain plain _ => cases plain

/-- A closure with the words of its captures is valid. -/
theorem Valid.closure {k : UInt16} {cs : List Capture} {contents : List Content} {x : Slot}
    (function : Γ.constants[k.toNat]? = some (some (.function contents)))
    (fits : Slot.aClosure.Fits x) (captures : List.Forall₂ (Captures Γ (S ++ [x])) cs contents) :
    Valid Γ (((Instr.closure k).encode, some ⟨S, g⟩) :: cs.map fun c => (c.encode, none))
      ⟨S, g⟩ (some (.plain (S ++ [x]))) := by
  refine ⟨lands_at (p := []) rfl rfl rfl, .cons (.closure function fits captures ?_ ?_) ?_, ?_⟩
  · simp [words, Function.comp_def]
  · exact lands_end (by simp; omega)
  · intro o w D ho
    simp at ho
  · have := Tiled.closure (A := ⟨S, g⟩) function captures.length_eq .nil
    rwa [List.append_nil] at this

/-- Nothing has to follow a return. -/
theorem Valid.return_ (below : S ≠ []) :
    Valid Γ [(Instr.return_.encode, some ⟨S ++ [.value], g⟩)] ⟨S ++ [.value], g⟩ e :=
  ⟨lands_at (p := []) rfl rfl rfl, .cons (.return_ below) stepsAt_nil, .instr (by simp) .nil⟩

/-- Code that is jumped over leaves what was there before it. -/
theorem Valid.skip {body : Layout} (below : S ≠ [])
    (inner : Valid Γ body (.plain (S ++ [.value])) (some (.plain (S ++ [.value]))))
    (near : body.length ≤ Chunk.maxDistance) :
    Valid Γ (jumpAt .jumpIfFalse body.length ⟨S ++ [.value], g⟩ :: body)
      ⟨S ++ [.value], g⟩ (some (.plain (S ++ [.value]))) := by
  generalize hj : jumpAt .jumpIfFalse body.length ⟨S ++ [.value], g⟩ = j
  have hend {t : Nat} (ht : t = body.length + 1) :
      Lands (j :: body) (some (.plain (S ++ [.value]))) t (.plain (S ++ [.value])) :=
    lands_end ht
  obtain ⟨hbl, hbs⟩ := inner.inside (c := j :: body) (p := [j]) (q := [])
    (by simp) (hend (by simp; omega))
  subst hj
  refine ⟨lands_at (p := []) rfl rfl rfl, .cons (.jumpIfFalse below hbl ?_) hbs,
    .instr (by simp) inner.tiled⟩
  exact hend (by rw [toNat_distance near]; omega)

/-- Two branches that end alike are valid behind a condition. -/
theorem Valid.branch {yes no : Layout} (below : S ≠ [])
    (taken : Valid Γ yes (.plain (S ++ [.value])) (some B))
    (other : Valid Γ no (.plain (S ++ [.value])) (some B))
    (near : yes.length + 1 ≤ Chunk.maxDistance) (near' : no.length ≤ Chunk.maxDistance) :
    Valid Γ (jumpAt .jumpIfFalse (yes.length + 1) ⟨S ++ [.value], g⟩ :: yes ++
      jumpAt .jump no.length B :: no) ⟨S ++ [.value], g⟩ (some B) := by
  generalize hj : jumpAt .jumpIfFalse (yes.length + 1) ⟨S ++ [.value], g⟩ = j
  generalize hk : jumpAt .jump no.length B = k
  have hend {t : Nat} (ht : t = yes.length + no.length + 2) :
      Lands (j :: yes ++ k :: no) (some B) t B := lands_end (by simp; omega)
  have hjump {t : Nat} (ht : t = yes.length + 1) : Lands (j :: yes ++ k :: no) (some B) t B :=
    lands_at (p := j :: yes) rfl (by simpa using ht) (hk ▸ rfl)
  obtain ⟨hyl, hys⟩ := taken.inside (c := j :: yes ++ k :: no) (p := [j]) (q := k :: no)
    rfl (hjump (by simp; omega))
  obtain ⟨hnl, hns⟩ := other.inside (c := j :: yes ++ k :: no) (p := j :: yes ++ [k])
    (q := []) (by simp) (hend (by simp; omega))
  subst hj hk
  refine ⟨lands_at (p := []) rfl rfl rfl, ?_,
    (Tiled.instr (by simp) taken.tiled).append (.instr (by simp) other.tiled)⟩
  refine .append (.cons (.jumpIfFalse below hyl ?_) hys) (.cons (.jump ?_) ?_)
  · rw [toNat_distance near]
    simpa [Nat.add_comm, Nat.add_left_comm] using hnl
  · exact hend (by rw [toNat_distance near']; simp; omega)
  · simpa using hns

/-- A loop with a condition is valid if its body gets back to it. -/
theorem Valid.loop {test body : Layout} (below : S ≠ [])
    (before : Valid Γ test A (some (.plain (S ++ [.value]))))
    (inner : Valid Γ body (.plain (S ++ [.value])) (some A))
    (near : body.length + 1 ≤ Chunk.maxDistance)
    (near' : test.length + body.length + 2 ≤ Chunk.maxDistance) :
    Valid Γ (test ++ jumpAt .jumpIfFalse (body.length + 1) (.plain (S ++ [.value])) :: body ++
      [jumpAt .loop (test.length + body.length + 2) A]) A (some (.plain (S ++ [.value]))) := by
  generalize hj : jumpAt .jumpIfFalse (body.length + 1) (.plain (S ++ [.value])) = j
  generalize hk : jumpAt .loop (test.length + body.length + 2) A = k
  have hend {t : Nat} (ht : t = test.length + body.length + 2) :
      Lands (test ++ j :: body ++ [k]) (some (.plain (S ++ [.value]))) t (.plain (S ++ [.value])) :=
    lands_end (by simp; omega)
  have hback {t : Nat} (ht : t = test.length + body.length + 1) :
      Lands (test ++ j :: body ++ [k]) (some (.plain (S ++ [.value]))) t A :=
    lands_at (p := test ++ j :: body) rfl (by simp; omega) (hk ▸ rfl)
  have hout {t : Nat} (ht : t = test.length) :
      Lands (test ++ j :: body ++ [k]) (some (.plain (S ++ [.value]))) t (.plain (S ++ [.value])) :=
    lands_at (j := j) (p := test) (q := body ++ [k]) (by simp) ht (hj ▸ rfl)
  obtain ⟨hbl, hbs⟩ := inner.inside (c := test ++ j :: body ++ [k]) (p := test ++ [j])
    (q := [k]) (by simp) (hback (by simp; omega))
  obtain ⟨htl, hts⟩ := before.inside (c := test ++ j :: body ++ [k]) (p := [])
    (q := j :: body ++ [k]) (by simp) (hout (by simp))
  subst hj hk
  refine ⟨htl, .append (.append hts (.cons (.jumpIfFalse below ?_ ?_) ?_))
      (.cons (.loop ?_ ?_) stepsAt_nil),
    (before.tiled.append (.instr (by simp) inner.tiled)).append (.instr (by simp) .nil)⟩
  · simpa using hbl
  · exact hend (by rw [toNat_distance near]; omega)
  · simpa using hbs
  · rw [toNat_distance near']
    simp only [List.length_append, List.length_cons]
    omega
  · rw [toNat_distance near', Nat.sub_eq_zero_of_le (by simp; omega)]
    exact htl

/-- A loop without a condition is valid, whatever should follow. -/
theorem Valid.forever {body : Layout} (inner : Valid Γ body A (some A))
    (near : body.length + 1 ≤ Chunk.maxDistance) :
    Valid Γ (body ++ [jumpAt .loop (body.length + 1) A]) A e := by
  generalize hk : jumpAt .loop (body.length + 1) A = k
  have hback {t : Nat} (ht : t = body.length) : Lands (body ++ [k]) e t A :=
    lands_at (p := body) rfl ht (hk ▸ rfl)
  obtain ⟨hbl, hbs⟩ := inner.inside (c := body ++ [k]) (p := []) (q := [k]) rfl
    (hback (by simp))
  subst hk
  refine ⟨hbl, .append hbs (.cons (.loop ?_ ?_) stepsAt_nil),
    inner.tiled.append (.instr (by simp) .nil)⟩
  · rw [toNat_distance near]
    omega
  · rw [toNat_distance near, Nat.sub_eq_zero_of_le (by omega)]
    exact hbl

/-- A loop with a step is valid if body and step get back to where it starts. -/
theorem Valid.stepLoop {step body : Layout} (advance : Valid Γ step A (some A))
    (inner : Valid Γ body A (some A)) (near : step.length + 2 ≤ Chunk.maxDistance)
    (near' : step.length + body.length + 2 ≤ Chunk.maxDistance) :
    Valid Γ (jumpAt .jump (step.length + 1) A :: step ++ jumpAt .loop (step.length + 2) A :: body ++
      [jumpAt .loop (step.length + body.length + 2) A]) A e := by
  generalize hj : jumpAt .jump (step.length + 1) A = j
  generalize hk : jumpAt .loop (step.length + 2) A = k
  generalize hl : jumpAt .loop (step.length + body.length + 2) A = l
  generalize hw : j :: step ++ k :: body ++ [l] = c
  have hstart : Lands c e 0 A :=
    lands_at (j := j) (p := []) (q := step ++ k :: body ++ [l]) (by simp [← hw]) rfl
      (hj ▸ rfl)
  have hback {t : Nat} (ht : t = step.length + 1) : Lands c e t A :=
    lands_at (j := k) (p := j :: step) (q := body ++ [l]) (by simp [← hw]) (by simpa using ht)
      (hk ▸ rfl)
  have hagain {t : Nat} (ht : t = step.length + body.length + 2) : Lands c e t A :=
    lands_at (j := l) (p := j :: step ++ k :: body) hw.symm (by simp; omega) (hl ▸ rfl)
  obtain ⟨hsl, hss⟩ := advance.inside (c := c) (p := [j]) (q := k :: body ++ [l])
    (by simp [← hw]) (hback (by simp; omega))
  obtain ⟨hbl, hbs⟩ := inner.inside (c := c) (p := j :: step ++ [k]) (q := [l])
    (by simp [← hw]) (hagain (by simp; omega))
  refine ⟨hstart, ?_, ?_⟩
  · subst hj hk hl
    rw [← hw] at hss hbs hsl hbl hstart ⊢
    refine .append (.append (.cons (.jump ?_) hss) (.cons (.loop ?_ ?_) ?_))
      (.cons (.loop ?_ ?_) stepsAt_nil)
    · rw [toNat_distance (by omega)]
      simpa [Nat.add_comm, Nat.add_left_comm] using hbl
    · rw [toNat_distance near]
      simp
    · rw [toNat_distance near, Nat.sub_eq_zero_of_le (by simp)]
      exact hstart
    · simpa using hbs
    · rw [toNat_distance near']
      simp
    · rw [toNat_distance near']
      have hone : 0 + (jumpAt .jump (step.length + 1) A :: step ++
          jumpAt .loop (step.length + 2) A :: body).length + 1 -
            (step.length + body.length + 2) = 1 := by
        simp
        omega
      rw [hone]
      exact hsl
  · rw [← hw]
    subst hj hk hl
    exact ((Tiled.instr (by simp) advance.tiled).append (.instr (by simp) inner.tiled)).append
      (.instr (by simp) .nil)

/-- A loop with a condition and a step is valid if all its parts fit. -/
theorem Valid.testLoop {test enter step body : Layout} (below : S ≠ [])
    (before : Valid Γ test A (some (.plain (S ++ [.value]))))
    (entering : Valid Γ enter (.plain (S ++ [.value])) (some C))
    (advance : Valid Γ step C (some A)) (inner : Valid Γ body C (some C))
    (near : enter.length + step.length + body.length + 3 ≤ Chunk.maxDistance)
    (near' : test.length + enter.length + step.length + 3 ≤ Chunk.maxDistance) :
    Valid Γ (test ++ jumpAt .jumpIfFalse (enter.length + step.length + body.length + 3)
        (.plain (S ++ [.value])) :: enter ++
      jumpAt .jump (step.length + 1) C :: step ++
      jumpAt .loop (test.length + enter.length + step.length + 3) A :: body ++
      [jumpAt .loop (step.length + body.length + 2) C]) A (some (.plain (S ++ [.value]))) := by
  generalize hi : jumpAt .jumpIfFalse (enter.length + step.length + body.length + 3)
    (.plain (S ++ [.value])) = i
  generalize hj : jumpAt .jump (step.length + 1) C = j
  generalize hk : jumpAt .loop (test.length + enter.length + step.length + 3) A = k
  generalize hl : jumpAt .loop (step.length + body.length + 2) C = l
  generalize hw : test ++ i :: enter ++ j :: step ++ k :: body ++ [l] = c
  have hlength : c.length = test.length + enter.length + step.length + body.length + 4 := by
    simp [← hw]
    omega
  have hend {t : Nat} (ht : t = test.length + enter.length + step.length + body.length + 4) :
      Lands c (some (.plain (S ++ [.value]))) t (.plain (S ++ [.value])) :=
    lands_end (by omega)
  have hout {t : Nat} (ht : t = test.length) :
      Lands c (some (.plain (S ++ [.value]))) t (.plain (S ++ [.value])) :=
    lands_at (j := i) (p := test) (q := enter ++ j :: step ++ k :: body ++ [l])
      (by simp [← hw]) ht (hi ▸ rfl)
  have hover {t : Nat} (ht : t = test.length + enter.length + 1) :
      Lands c (some (.plain (S ++ [.value]))) t C :=
    lands_at (j := j) (p := test ++ i :: enter) (q := step ++ k :: body ++ [l])
      (by simp [← hw]) (by simp; omega) (hj ▸ rfl)
  have hback {t : Nat} (ht : t = test.length + enter.length + step.length + 2) :
      Lands c (some (.plain (S ++ [.value]))) t A :=
    lands_at (j := k) (p := test ++ i :: enter ++ j :: step) (q := body ++ [l])
      (by simp [← hw]) (by simp; omega) (hk ▸ rfl)
  have hagain {t : Nat} (ht : t = test.length + enter.length + step.length + body.length + 3) :
      Lands c (some (.plain (S ++ [.value]))) t C :=
    lands_at (j := l) (p := test ++ i :: enter ++ j :: step ++ k :: body) (q := [])
      (by simp [← hw]) (by simp; omega) (hl ▸ rfl)
  obtain ⟨htl, hts⟩ := before.inside (c := c) (p := [])
    (q := i :: enter ++ j :: step ++ k :: body ++ [l]) (by simp [← hw]) (hout (by simp))
  obtain ⟨hel, hes⟩ := entering.inside (c := c) (p := test ++ [i])
    (q := j :: step ++ k :: body ++ [l]) (by simp [← hw]) (hover (by simp; omega))
  obtain ⟨hsl, hss⟩ := advance.inside (c := c) (p := test ++ i :: enter ++ [j])
    (q := k :: body ++ [l]) (by simp [← hw]) (hback (by simp; omega))
  obtain ⟨hbl, hbs⟩ := inner.inside (c := c)
    (p := test ++ i :: enter ++ j :: step ++ [k]) (q := [l]) (by simp [← hw])
    (hagain (by simp; omega))
  have htail : (test ++ i :: enter ++ j :: step ++ k :: body).length + 1 -
      (step.length + body.length + 2) = (test ++ i :: enter ++ [j]).length := by
    simp
    omega
  refine ⟨htl, ?_, ?_⟩
  · subst hi hj hk hl
    rw [← hw] at hts htl hel hes hsl hss hbl hbs hend ⊢
    refine .append (.append (.append (.append hts (.cons (.jumpIfFalse below ?_ ?_) ?_))
      (.cons (.jump ?_) ?_)) (.cons (.loop ?_ ?_) ?_)) (.cons (.loop ?_ ?_) stepsAt_nil)
    · simpa using hel
    · exact hend (by rw [toNat_distance near]; omega)
    · simpa using hes
    · rw [toNat_distance (by omega)]
      simpa [Nat.add_comm, Nat.add_left_comm, Nat.add_assoc] using hbl
    · simpa [Nat.add_comm, Nat.add_left_comm, Nat.add_assoc] using hss
    · rw [toNat_distance near']
      simp
      omega
    · rw [toNat_distance near', Nat.sub_eq_zero_of_le (by simp; omega)]
      exact htl
    · simpa [Nat.add_comm, Nat.add_left_comm, Nat.add_assoc] using hbs
    · rw [toNat_distance (by omega)]
      simp
      omega
    · rw [toNat_distance (by omega), Nat.zero_add, htail]
      exact hsl
  · rw [← hw]
    subst hi hj hk hl
    exact (((before.tiled.append (.instr (by simp) entering.tiled)).append
      (.instr (by simp) advance.tiled)).append (.instr (by simp) inner.tiled)).append
        (.instr (by simp) .nil)

end Layout

open Layout in
/-- Every fragment has a valid layout. -/
theorem Fragment.layout {Γ : CodeContext} {A B : Shape} {w : List UInt32}
    (h : Fragment Γ A w B) : ∃ a : Layout, a.words = w ∧ Valid Γ a A (some B) := by
  induction h with
  | nil fits => exact ⟨[], rfl, .nil fits⟩
  | append _ _ ih ih' =>
    obtain ⟨a, rfl, ha⟩ := ih
    obtain ⟨b, rfl, hb⟩ := ih'
    exact ⟨a ++ b, words_append, ha.append hb⟩
  | instr effect => exact ⟨_, rfl, .instr effect⟩
  | closure function fits captures =>
    exact ⟨_, by simp [words, Function.comp_def], .closure function fits captures⟩
  | return_ below => exact ⟨_, rfl, .return_ below⟩
  | skip below _ near ih =>
    obtain ⟨a, rfl, ha⟩ := ih
    rw [length_words] at near ⊢
    exact ⟨_, rfl, ha.skip below near⟩
  | branch below _ _ near near' ih ih' =>
    obtain ⟨a, rfl, ha⟩ := ih
    obtain ⟨b, rfl, hb⟩ := ih'
    simp only [length_words] at near near' ⊢
    exact ⟨_, by simp [words, jumpAt], ha.branch below hb near near'⟩
  | loop below _ _ near near' ih ih' =>
    obtain ⟨a, rfl, ha⟩ := ih
    obtain ⟨b, rfl, hb⟩ := ih'
    simp only [length_words] at near near' ⊢
    exact ⟨_, by simp [words, jumpAt], ha.loop below hb near near'⟩
  | forever _ near ih =>
    obtain ⟨a, rfl, ha⟩ := ih
    simp only [length_words] at near ⊢
    exact ⟨_, by simp [words, jumpAt], ha.forever near⟩
  | stepLoop _ _ near near' ih ih' =>
    obtain ⟨a, rfl, ha⟩ := ih
    obtain ⟨b, rfl, hb⟩ := ih'
    simp only [length_words] at near near' ⊢
    exact ⟨_, by simp [words, jumpAt], ha.stepLoop hb near near'⟩
  | testLoop below _ _ _ _ near near' ih ih' ih₂ ih₃ =>
    obtain ⟨a, rfl, ha⟩ := ih
    obtain ⟨b, rfl, hb⟩ := ih'
    obtain ⟨c, rfl, hc⟩ := ih₂
    obtain ⟨d, rfl, hd⟩ := ih₃
    simp only [length_words] at near near' ⊢
    exact ⟨_, by simp [words, jumpAt], ha.testLoop below hb hc hd near near'⟩

end ScriptMachine

namespace ScriptMachine

/-- The instructions that a function's final return may answer with. -/
def finalAnswers : List Instr := [.null, .getLocal 0]

/-- The stack at the entry of a function: the callee and the arguments. -/
def entrySlots (arity : UInt8) : List Slot := List.replicate (arity.toNat + 1) .value

/-- Every word has a line. -/
structure Chunk.Lined (c : Chunk) : Prop where
  size : c.lines.size = c.code.size

/-- No code has no line. -/
theorem Chunk.lined_empty : Chunk.empty.Lined := ⟨rfl⟩

/-- More words of one line have lines too. -/
theorem Chunk.Lined.append {c : Chunk} {code : Array UInt32} {line : UInt32} {n : Nat} (h : c.Lined)
    (hcode : code.size = c.code.size + n) :
    { c with code := code, lines := c.lines ++ Array.replicate n line }.Lined where
  size := by simp [h.size, hcode]

/-- The code of a function is a fragment with a final return, and every word has a line. -/
structure FunctionCode (Γ : CodeContext) (f : Prototype) : Prop where
  code : ∃ params body S last, SlotsFit (entrySlots f.arity) params ∧ S ≠ [] ∧
    Fragment Γ (.plain params) body (.plain S) ∧ last ∈ finalAnswers ∧
    f.chunk.code.toList = body ++ [last.encode, Instr.return_.encode]
  captures : Γ.captures.length = f.upvalueCount
  lines : f.chunk.Lined

/-- What a final return answers with is one more temporary. -/
theorem effect_of_finalAnswer {Γ : CodeContext} {last : Instr} {S : List Slot} (below : S ≠ [])
    (h : last ∈ finalAnswers) :
    ∃ T, SlotsFit T (S ++ [.value]) ∧ Effect Γ last (.plain S) (.plain T) := by
  simp only [finalAnswers, List.mem_cons, List.not_mem_nil, or_false] at h
  rcases h with rfl | rfl
  · refine ⟨S ++ [.value], .refl _, ?_⟩
    have := Effect.plain (Γ := Γ) (g := none) .null below
    simpa only [withValues, List.replicate_zero, List.append_nil, List.replicate_one] using this
  · obtain ⟨a, rest, rfl⟩ := List.exists_cons_of_ne_nil below
    refine ⟨(a :: rest) ++ [⟨a.content, false⟩], .append (.refl _) ?_, .getLocal rfl⟩
    exact .cons ⟨Content.fits_any _, by simp⟩ .nil

/-- A function's code has a layout that control never leaves, with a return as its last
instruction. -/
theorem FunctionCode.layout {Γ : CodeContext} {f : Prototype} (h : FunctionCode Γ f) :
    ∃ (a : Layout) (R : Shape), a.words ++ [Instr.return_.encode] = f.chunk.code.toList ∧
      (a ++ [(Instr.return_.encode, some R)]).Valid Γ (.plain (entrySlots f.arity)) none := by
  obtain ⟨params, body, S, last, hparams, below, hbody, hlast, hcode⟩ := h.code
  obtain ⟨T, hT, heffect⟩ := effect_of_finalAnswer (Γ := Γ) below hlast
  obtain ⟨a, rfl, ha⟩ := hbody.layout
  have hend := ((ha.append (.instr heffect)).append (.nil (Shape.fits_plain hT))).append
    (Layout.Valid.return_ (g := none) (e := none) below)
  rw [List.append_nil] at hend
  refine ⟨a ++ [(last.encode, some (.plain S))], _, ?_,
    hend.entry.of_fits (Shape.fits_plain hparams), hend.steps, hend.tiled⟩
  rw [hcode]
  simp [Layout.words]

end ScriptMachine
