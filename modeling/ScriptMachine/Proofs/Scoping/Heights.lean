import ScriptMachine.Proofs.Code.WellFormed
import ScriptMachine.Proofs.Scoping.Scopes

/-!
# Heights of the stack along code

How high the stack of a function is where control gets to, if each instruction takes its operands
and leaves its results. Words of code lead from one height to another if control that enters at
their start stays inside or leaves them at their end, with that height. What a form of code leads
to follows from what its parts lead to: control runs through a part, and then takes a jump.
-/

namespace ScriptMachine

open Compile

variable {B : Body} {code ws v w : List UInt32} {n m k : Nat}

/-- Control gets from offset `o` with height `n` to another offset and height, by instructions at
the offsets from `lo` on and below `hi`. -/
inductive Path (B : Body) (code : List UInt32) (lo hi o n : Nat) : Nat → Nat → Prop
  | start : Path B code lo hi o n o n
  | step {t m u : Nat} {i : Instr} (path : Path B code lo hi o n t m)
      (inside : lo ≤ t ∧ t < hi) (instr : code[t]? = some i.encode)
      (next : u ∈ i.successors t (i.width B.captureCount)) :
      Path B code lo hi o n u (m - i.operands + i.results)

/-- Wherever the words `ws` stand, control that enters them with height `n` leaves them only at
their end, with height `m`. -/
def Leads (B : Body) (n : Nat) (ws : List UInt32) (m : Nat) : Prop :=
  ∀ (before after : List UInt32) (o k : Nat), Path B (before ++ ws ++ after) before.length
    (before.length + ws.length) before.length n o k →
      (before.length ≤ o ∧ o < before.length + ws.length) ∨
        (o = before.length + ws.length ∧ k = m)

/-- The words `v` stand at an offset of some code. -/
def Segment (code : List UInt32) (o : Nat) (v : List UInt32) : Prop :=
  ∃ before after, code = before ++ v ++ after ∧ before.length = o

/-- The first part of a segment stands where the segment does. -/
theorem Segment.left (h : Segment code n (v ++ w)) : Segment code n v := by
  obtain ⟨before, after, rfl, rfl⟩ := h
  exact ⟨before, w ++ after, by simp, rfl⟩

/-- The instruction behind a segment stands behind its words. -/
theorem Segment.instr {i : Instr} (h : Segment code n (v ++ [i.encode])) :
    code[n + v.length]? = some i.encode := by
  obtain ⟨before, after, rfl, rfl⟩ := h
  simp

/-- No two instructions have the same word. -/
theorem Instr.encode_injective {i j : Instr} (h : i.encode = j.encode) : i = j := by
  have := congrArg Instr.decode? h
  rwa [Instr.decode?_encode, Instr.decode?_encode, Option.some.injEq] at this

/-- Whether an instruction is one word after which control goes on. -/
def Instr.isStraight : Instr → Bool
  | jump _ | jumpIfFalse _ | loop _ | return_ | closure _ => false
  | _ => true

/-- A straight instruction is one word. -/
theorem Instr.width_of_isStraight (i : Instr) (hi : i.isStraight = true) (count : UInt16 → Nat) :
    i.width count = 1 := by
  cases i <;> first | rfl | cases hi

/-- A straight instruction is followed by the next word. -/
theorem Instr.successors_of_isStraight (i : Instr) (hi : i.isStraight = true) (o words : Nat) :
    i.successors o words = [o + words] := by
  cases i <;> first | rfl | cases hi

/-- At the offset `o`, control with height `k` runs through the words `v` and then leaves the code
at `hi` with height `m`, or takes an instruction to where `S` allows. -/
inductive Piece (B : Body) (code : List UInt32) (hi m : Nat) (S : Nat → Nat → Prop) (o k : Nat) :
    Prop
  | exit {v : List UInt32} (segment : Segment code o v) (leads : Leads B k v m)
      (ends : o + v.length = hi) : Piece B code hi m S o k
  | instr {v : List UInt32} {k' : Nat} (i : Instr) (segment : Segment code o (v ++ [i.encode]))
      (leads : Leads B k v k') (inside : o + v.length < hi)
      (goes : ∀ t ∈ i.successors (o + v.length) (i.width B.captureCount),
        S t (k' - i.operands + i.results)) : Piece B code hi m S o k

/-- Words lead to a height if control runs through them piece by piece. -/
theorem leads_of_pieces (h : ∀ before after : List UInt32, ∃ S : Nat → Nat → Prop,
    S before.length n ∧ ∀ o k, S o k → before.length ≤ o ∧
      Piece B (before ++ ws ++ after) (before.length + ws.length) m S o k) : Leads B n ws m := by
  intro before after x kx hpath
  obtain ⟨S, hstart, hpiece⟩ := h before after
  generalize before ++ ws ++ after = code at hpath hpiece
  generalize before.length + ws.length = hi at hpath hpiece ⊢
  -- control is always inside the part that follows some checkpoint
  have hinv : ∃ o k, S o k ∧ ∃ v k', Segment code o v ∧ Leads B k v k' ∧
      Path B code o (o + v.length) o k x kx ∧
      ((o + v.length = hi ∧ k' = m) ∨ (∃ i : Instr, code[o + v.length]? = some i.encode ∧
        o + v.length < hi ∧ ∀ t ∈ i.successors (o + v.length) (i.width B.captureCount),
          S t (k' - i.operands + i.results))) := by
    have henter (o k : Nat) (hS : S o k) : ∃ o' k', S o' k' ∧ ∃ v k'', Segment code o' v ∧
        Leads B k' v k'' ∧ Path B code o' (o' + v.length) o' k' o k ∧
        ((o' + v.length = hi ∧ k'' = m) ∨ (∃ i : Instr, code[o' + v.length]? = some i.encode ∧
          o' + v.length < hi ∧ ∀ t ∈ i.successors (o' + v.length) (i.width B.captureCount),
            S t (k'' - i.operands + i.results))) := by
      refine ⟨o, k, hS, ?_⟩
      cases (hpiece o k hS).2 with
      | exit segment leads ends => exact ⟨_, _, segment, leads, .start, .inl ⟨ends, rfl⟩⟩
      | instr i segment leads inside goes =>
        exact ⟨_, _, segment.left, leads, .start, .inr ⟨i, segment.instr, inside, goes⟩⟩
    induction hpath with
    | start => exact henter _ _ hstart
    | @step t mt u i path inside instr next ih =>
      obtain ⟨o, k, hS, v, k', hv, hleads, hpath, hend⟩ := ih
      have hat : (o ≤ t ∧ t < o + v.length) ∨ (t = o + v.length ∧ mt = k') := by
        obtain ⟨p, q, rfl, rfl⟩ := hv
        exact hleads p q t mt hpath
      rcases hat with hat | ⟨rfl, rfl⟩
      · exact ⟨o, k, hS, v, k', hv, hleads, .step hpath hat instr next, hend⟩
      · rcases hend with ⟨hend, -⟩ | ⟨j, hj, -, hgoes⟩
        · omega
        · rw [instr, Option.some.injEq] at hj
          obtain rfl := Instr.encode_injective hj
          exact henter _ _ (hgoes u next)
  obtain ⟨o, k, hS, v, k', hv, hleads, hpath, hend⟩ := hinv
  have hlo := (hpiece o k hS).1
  have hat : (o ≤ x ∧ x < o + v.length) ∨ (x = o + v.length ∧ kx = k') := by
    obtain ⟨p, q, rfl, rfl⟩ := hv
    exact hleads p q x kx hpath
  rcases hend with ⟨hend, rfl⟩ | ⟨i, -, hinside, -⟩
  · rcases hat with hat | ⟨rfl, rfl⟩
    · exact .inl (by omega)
    · exact .inr ⟨hend, rfl⟩
  · exact .inl (by omega)

/-! ### The forms of code -/

namespace Leads

/-- No words leave the height. -/
theorem nil : Leads B n [] n := by
  intro before after o k hpath
  cases hpath with
  | start => exact .inr ⟨rfl, rfl⟩
  | step path inside => exact absurd inside.2 (by simp; omega)

/-- Words in sequence lead from height to height. -/
theorem append (hv : Leads B n v k) (hw : Leads B k w m) : Leads B n (v ++ w) m := by
  intro before after x kx hpath
  -- control is still in the first part, or came through its end into the second one
  have hinv : Path B (before ++ (v ++ w) ++ after) before.length (before.length + v.length)
        before.length n x kx ∨
      Path B (before ++ (v ++ w) ++ after) (before ++ v).length
        ((before ++ v).length + w.length) (before ++ v).length k x kx := by
    have hfirst {o k' : Nat} (h : Path B (before ++ (v ++ w) ++ after) before.length
        (before.length + v.length) before.length n o k') :=
      hv before (w ++ after) o k' (by simpa using h)
    have hsecond {o k' : Nat} (h : Path B (before ++ (v ++ w) ++ after) (before ++ v).length
        ((before ++ v).length + w.length) (before ++ v).length k o k') :=
      hw (before ++ v) after o k' (by simpa using h)
    induction hpath with
    | start => exact .inl .start
    | step path inside instr next ih =>
      rcases ih with ih | ih
      · rcases hfirst ih with hat | ⟨rfl, rfl⟩
        · exact .inl (.step ih hat instr next)
        · rw [← List.length_append] at instr next inside
          refine .inr (.step .start ⟨Nat.le_refl _, ?_⟩ instr next)
          have := inside.2
          simp only [List.length_append] at this ⊢
          omega
      · rcases hsecond ih with hat | ⟨rfl, rfl⟩
        · exact .inr (.step ih hat instr next)
        · exact absurd inside.2 (by simp; omega)
  rcases hinv with h | h
  · rcases hv before (w ++ after) x kx (by simpa using h) with hat | ⟨rfl, rfl⟩
    · exact .inl ⟨hat.1, by simp; omega⟩
    · rcases hw (before ++ v) after (before ++ v).length kx .start with hat | ⟨hat, heq⟩
      · simp only [List.length_append] at hat ⊢
        exact .inl ⟨by omega, by omega⟩
      · simp only [List.length_append] at hat ⊢
        exact .inr ⟨by omega, heq⟩
  · have := hw (before ++ v) after x kx (by simpa using h)
    simp only [List.length_append] at this ⊢
    rcases this with hat | ⟨hat, heq⟩
    · exact .inl ⟨by omega, by omega⟩
    · exact .inr ⟨by omega, heq⟩

/-- An instruction with the words that belong to it, after which control goes on. -/
theorem instr (i : Instr) (hwidth : i.width B.captureCount = 1 + v.length)
    (hstraight : ∀ o words, i.successors o words = [o + words])
    (hm : n - i.operands + i.results = m) : Leads B n (i.encode :: v) m := by
  refine leads_of_pieces fun before after => ⟨fun o k =>
    (o = before.length ∧ k = n) ∨ (o = before.length + (i.encode :: v).length ∧ k = m),
    .inl ⟨rfl, rfl⟩, ?_⟩
  rintro o k (⟨rfl, rfl⟩ | ⟨rfl, rfl⟩)
  · refine ⟨Nat.le_refl _, .instr i (v := []) ⟨before, v ++ after, by simp, rfl⟩ .nil (by simp) ?_⟩
    intro t ht
    rw [hstraight, hwidth, List.mem_singleton] at ht
    exact .inr ⟨by simp [ht]; omega, hm⟩
  · exact ⟨Nat.le_add_right _ _, .exit (v := []) ⟨before ++ i.encode :: v, after, by simp, by simp⟩
      .nil rfl⟩

/-- An instruction of one word after which control goes on, and what follows it. -/
theorem cons (i : Instr) (hi : i.isStraight = true)
    (hw : Leads B (n - i.operands + i.results) w m) : Leads B n (i.encode :: w) m :=
  append (v := [i.encode]) (instr i (v := []) (i.width_of_isStraight hi B.captureCount)
    (i.successors_of_isStraight hi) rfl) hw

/-- Control does not go on after a return. -/
theorem return_ : Leads B n [Instr.return_.encode] m := by
  refine leads_of_pieces fun before after =>
    ⟨fun o k => o = before.length ∧ k = n, ⟨rfl, rfl⟩, ?_⟩
  rintro _ _ ⟨rfl, rfl⟩
  refine ⟨Nat.le_refl _, .instr .return_ (v := []) ⟨before, after, by simp, rfl⟩ .nil (by simp) ?_⟩
  intro t ht
  cases ht

/-- Code that control may skip. -/
theorem skip {d : UInt16} (hv : Leads B n v n) (hpos : 0 < n) (hd : d.toNat = v.length) :
    Leads B n ((Instr.jumpIfFalse d).encode :: v) n := by
  refine leads_of_pieces fun before after => ⟨fun o k =>
    (o = before.length ∧ k = n) ∨ (o = before.length + 1 ∧ k = n) ∨
      (o = before.length + 1 + v.length ∧ k = n), .inl ⟨rfl, rfl⟩, ?_⟩
  rintro o k (⟨rfl, rfl⟩ | ⟨rfl, rfl⟩ | ⟨rfl, rfl⟩)
  · refine ⟨Nat.le_refl _, .instr (.jumpIfFalse d) (v := []) ⟨before, v ++ after, by simp, rfl⟩
      .nil (by simp) ?_⟩
    intro t ht
    simp only [Instr.successors, List.mem_cons, List.not_mem_nil, or_false, hd] at ht
    simp only [Instr.operands, Instr.results, Nat.sub_add_cancel hpos]
    rcases ht with rfl | rfl
    · exact .inr (.inl ⟨rfl, trivial⟩)
    · exact .inr (.inr ⟨rfl, trivial⟩)
  · exact ⟨by omega, .exit ⟨before ++ [(Instr.jumpIfFalse d).encode], after, by simp, by simp⟩ hv
      (by simp; omega)⟩
  · exact ⟨by omega, .exit (v := []) ⟨before ++ (Instr.jumpIfFalse d).encode :: v, after, by simp,
      by simp; omega⟩ .nil (by simp; omega)⟩

/-- Code for a true condition, and code for a false one. -/
theorem branch {d d' : UInt16} (hv : Leads B n v m) (hw : Leads B n w m) (hpos : 0 < n)
    (hd : d.toNat = v.length + 1) (hd' : d'.toNat = w.length) :
    Leads B n ((Instr.jumpIfFalse d).encode :: (v ++ (Instr.jump d').encode :: w)) m := by
  refine leads_of_pieces fun before after => ⟨fun o k =>
    (o = before.length ∧ k = n) ∨ (o = before.length + 1 ∧ k = n) ∨
      (o = before.length + 1 + (v.length + 1) ∧ k = n) ∨
      (o = before.length + 1 + v.length + 1 + w.length ∧ k = m), .inl ⟨rfl, rfl⟩, ?_⟩
  rintro o k (⟨rfl, rfl⟩ | ⟨rfl, rfl⟩ | ⟨rfl, rfl⟩ | ⟨rfl, rfl⟩)
  · refine ⟨Nat.le_refl _, .instr (.jumpIfFalse d) (v := [])
      ⟨before, v ++ (Instr.jump d').encode :: w ++ after, by simp, rfl⟩ .nil (by simp) ?_⟩
    intro t ht
    simp only [Instr.successors, List.mem_cons, List.not_mem_nil, or_false, hd] at ht
    simp only [Instr.operands, Instr.results, Nat.sub_add_cancel hpos]
    rcases ht with rfl | rfl
    · exact .inr (.inl ⟨rfl, trivial⟩)
    · exact .inr (.inr (.inl ⟨rfl, trivial⟩))
  · refine ⟨by omega, .instr (.jump d') ⟨before ++ [(Instr.jumpIfFalse d).encode], w ++ after,
      by simp, by simp⟩ hv (by simp; omega) ?_⟩
    intro t ht
    simp only [Instr.successors, List.mem_singleton, hd'] at ht
    exact .inr (.inr (.inr ⟨by omega, rfl⟩))
  · exact ⟨by omega, .exit ⟨before ++ (Instr.jumpIfFalse d).encode :: (v ++
      [(Instr.jump d').encode]), after, by simp, by simp; omega⟩ hw (by simp; omega)⟩
  · exact ⟨by omega, .exit (v := []) ⟨before ++ (Instr.jumpIfFalse d).encode :: (v ++
      (Instr.jump d').encode :: w), after, by simp, by simp; omega⟩ .nil (by simp; omega)⟩

/-- Code that is repeated as long as the condition behind it is true. -/
theorem repeating {d d' : UInt16} (hv : Leads B n v (n + 1)) (hd : d.toNat = 2)
    (hd' : d'.toNat = v.length + 3) : Leads B n
      (v ++ [(Instr.jumpIfFalse d).encode, Instr.pop.encode, (Instr.loop d').encode,
        Instr.pop.encode]) n := by
  have hpop : Leads B (n + 1) [Instr.pop.encode] n := .instr .pop rfl (fun _ _ => rfl) rfl
  refine leads_of_pieces fun before after => ⟨fun o k =>
    (o = before.length ∧ k = n) ∨ (o = before.length + v.length + 1 ∧ k = n + 1) ∨
      (o = before.length + v.length + 3 ∧ k = n + 1), .inl ⟨rfl, rfl⟩, ?_⟩
  rintro o k (⟨rfl, rfl⟩ | ⟨rfl, rfl⟩ | ⟨rfl, rfl⟩)
  · refine ⟨Nat.le_refl _, .instr (.jumpIfFalse d) ⟨before, [Instr.pop.encode,
      (Instr.loop d').encode, Instr.pop.encode] ++ after, by simp, rfl⟩ hv (by simp) ?_⟩
    intro t ht
    simp only [Instr.successors, List.mem_cons, List.not_mem_nil, or_false, hd] at ht
    rcases ht with rfl | rfl
    · exact .inr (.inl ⟨rfl, rfl⟩)
    · exact .inr (.inr ⟨by omega, rfl⟩)
  · refine ⟨by omega, .instr (.loop d') ⟨before ++ v ++ [(Instr.jumpIfFalse d).encode],
      Instr.pop.encode :: after, by simp, by simp; omega⟩ hpop (by simp; omega) ?_⟩
    intro t ht
    simp only [Instr.successors, List.mem_singleton, hd', List.length_singleton] at ht
    exact .inl ⟨by omega, rfl⟩
  · exact ⟨by omega, .exit ⟨before ++ v ++ [(Instr.jumpIfFalse d).encode, Instr.pop.encode,
      (Instr.loop d').encode], after, by simp, by simp; omega⟩ hpop (by simp; omega)⟩

end Leads

/-- The code of a condition that may leave a loop, where the words after it up to the end of the
loop are `after` many, and the code behind the loop: the condition is taken off the stack. -/
inductive Guard (B : Body) (n after : Nat) : List UInt32 → List UInt32 → Prop
  | none : Guard B n after [] []
  | some {test : List UInt32} {d : UInt16} (leads : Leads B n test (n + 1))
      (distance : d.toNat = after + 1) :
      Guard B n after (test ++ [(Instr.jumpIfFalse d).encode, Instr.pop.encode]) [Instr.pop.encode]

/-- The code that a loop with `before` words of condition jumps back to after its body, and how
far before the body it is. -/
inductive Advance (B : Body) (n before : Nat) : List UInt32 → Nat → Prop
  | none : Advance B n before [] before
  | some {step : List UInt32} {d d' : UInt16} (leads : Leads B n step n)
      (distance : d.toNat = step.length + 1) (start : d'.toNat = before + step.length + 2) :
      Advance B n before ((Instr.jump d).encode :: (step ++ [(Instr.loop d').encode]))
        (step.length + 1)

/-- A loop with its condition in front. -/
theorem Leads.loop {T P X : List UInt32} {back : Nat} {d : UInt16}
    (guard : Guard B n (P.length + v.length + 1) T X) (advance : Advance B n T.length P back)
    (body : Leads B n v n) (hd : d.toNat = back + v.length + 1) :
    Leads B n (T ++ P ++ v ++ (Instr.loop d).encode :: X) n := by
  refine leads_of_pieces fun before after => ⟨fun o k =>
    (o = before.length ∧ k = n) ∨ (T ≠ [] ∧ o + 1 = before.length + T.length ∧ k = n + 1) ∨
      (P ≠ [] ∧ o = before.length + T.length + 1 ∧ k = n) ∨
      (P ≠ [] ∧ o = before.length + T.length + P.length ∧ k = n) ∨
      (T ≠ [] ∧ o = before.length + T.length + P.length + v.length + 1 ∧ k = n + 1),
    .inl ⟨rfl, rfl⟩, ?_⟩
  have hpop : Leads B (n + 1) [Instr.pop.encode] n := .instr .pop rfl (fun _ _ => rfl) rfl
  generalize hS : (fun o k : Nat => (o = before.length ∧ k = n) ∨ _) = S
  have hstart : S before.length n := by subst hS; exact .inl ⟨rfl, rfl⟩
  -- what is run when the condition was true, if it is still to be taken off the stack or not
  have hinner {pre L : List UInt32} {k : Nat}
      (hcode : before ++ (T ++ P ++ v ++ (Instr.loop d).encode :: X) ++ after =
        pre ++ L ++ (P ++ v ++ (Instr.loop d).encode :: (X ++ after)))
      (hlength : pre.length + L.length = before.length + T.length) (hL : Leads B k L n) :
      Piece B (before ++ (T ++ P ++ v ++ (Instr.loop d).encode :: X) ++ after)
        (before.length + (T ++ P ++ v ++ (Instr.loop d).encode :: X).length) n S pre.length k := by
    cases advance with
    | none =>
      refine .instr (.loop d) ⟨pre, X ++ after, by rw [hcode]; simp, rfl⟩ (hL.append body)
        (by simp; omega) ?_
      intro t ht
      simp only [Instr.successors, List.mem_singleton, hd, List.length_append] at ht
      obtain rfl : t = before.length := by omega
      exact hstart
    | @some u d₁ d₂ step distance start =>
      refine .instr (.jump d₁) ⟨pre, u ++ (Instr.loop d₂).encode :: v ++ (Instr.loop d).encode ::
        (X ++ after), by rw [hcode]; simp, rfl⟩ hL (by simp; omega) ?_
      intro t ht
      simp only [Instr.successors, List.mem_singleton, distance] at ht
      subst hS
      exact .inr (.inr (.inr (.inl ⟨by simp, by simp; omega, rfl⟩)))
  intro o k hok
  rw [← hS] at hok
  rcases hok with ⟨rfl, rfl⟩ | ⟨hT, ho, rfl⟩ | ⟨hP, rfl, rfl⟩ | ⟨hP, rfl, rfl⟩ | ⟨hT, rfl, rfl⟩
  · refine ⟨Nat.le_refl _, ?_⟩
    cases guard with
    | none => exact hinner (L := []) (by simp) (by simp) .nil
    | @some u d₁ test distance =>
      refine .instr (.jumpIfFalse d₁) ⟨before, Instr.pop.encode :: P ++ v ++ (Instr.loop d).encode ::
        [Instr.pop.encode] ++ after, by simp, rfl⟩ test (by simp) ?_
      intro t ht
      simp only [Instr.successors, List.mem_cons, List.not_mem_nil, or_false, distance] at ht
      subst hS
      rcases ht with rfl | rfl
      · exact .inr (.inl ⟨by simp, by simp; omega, rfl⟩)
      · exact .inr (.inr (.inr (.inr ⟨by simp, by simp; omega, rfl⟩)))
  · refine ⟨by have := List.length_pos_iff.mpr hT; omega, ?_⟩
    cases guard with
    | none => exact absurd rfl hT
    | @some u d₁ test distance =>
      have hat : o = (before ++ u ++ [(Instr.jumpIfFalse d₁).encode]).length := by
        simp at ho ⊢
        omega
      rw [hat]
      exact hinner (by simp) (by simp; omega) hpop
  · refine ⟨by omega, ?_⟩
    cases advance with
    | none => exact absurd rfl hP
    | @some u d₁ d₂ step distance start =>
      refine .instr (.loop d₂) ⟨before ++ T ++ [(Instr.jump d₁).encode], v ++
        (Instr.loop d).encode :: X ++ after, by simp, by simp; omega⟩ step (by simp; omega) ?_
      intro t ht
      simp only [Instr.successors, List.mem_singleton, start] at ht
      obtain rfl : t = before.length := by omega
      exact hstart
  · refine ⟨by omega, ?_⟩
    cases advance with
    | none => exact absurd rfl hP
    | @some u d₁ d₂ step distance start =>
      refine .instr (.loop d) ⟨before ++ T ++ (Instr.jump d₁).encode :: (u ++
        [(Instr.loop d₂).encode]), X ++ after, by simp, by simp; omega⟩ body (by simp; omega) ?_
      intro t ht
      simp only [Instr.successors, List.mem_singleton, hd] at ht
      subst hS
      exact .inr (.inr (.inl ⟨by simp, by simp at ht; omega, rfl⟩))
  · refine ⟨by omega, ?_⟩
    cases guard with
    | none => exact absurd rfl hT
    | @some u d₁ test distance =>
      exact .exit ⟨before ++ (u ++ [(Instr.jumpIfFalse d₁).encode, Instr.pop.encode]) ++ P ++ v ++
        [(Instr.loop d).encode], after, by simp, by simp; omega⟩ hpop (by simp; omega)

end ScriptMachine
