import ScriptMachine.Proofs.Scoping.Resolving
import ScriptMachine.Proofs.Scoping.Steps

/-!
# The code of expressions

A forward jump is emitted without its distance, which it gets when its target is reached: then it
goes over what was added in between. A jump back knows its distance at once, because a step knows
with how many words it started.

What translating an expression adds is code of the expression, with every name found from the
scope in which the expression stands.
-/

namespace ScriptMachine.Compile

variable {before : Heap} {s s' s'' : State} {o : Nat} {P K : Site → Prop} {α β : Type}
  {Q : Body → Site → α → List UInt32 → Site → Prop}
  {R : Body → Site → β → List UInt32 → Site → Prop}

/-- A distance that is short enough fits its operand. -/
theorem toNat_distance {n : Nat} (h : n ≤ Chunk.maxDistance) : n.toUInt16.toNat = n := by
  have hlt : n < 2 ^ 16 := Nat.lt_succ_of_le h
  exact UInt16.toNat_ofNat_of_lt hlt

/-- A patched jump goes over the words behind it. -/
theorem State.Adds.patch {jump : UInt16 → Instr} {v w : List UInt32} {at_ : Nat}
    (hj : Forward jump) (h : s.Adds before s' (v ++ (jump 0xFFFF).encode :: w))
    (hat : at_ = s.draft.chunk.code.size + v.length) (hp : s'.Patched at_ () s'') :
    ∃ d : UInt16, d.toNat = w.length ∧ s.Adds before s'' (v ++ (jump d).encode :: w) := by
  obtain ⟨hnear, rfl⟩ := hp
  have hsize : s'.draft.chunk.code.size - at_ - 1 = w.length := by
    rw [← Array.length_toList, h.code, hat]
    simp
    omega
  rw [hsize] at hnear ⊢
  refine ⟨_, toNat_distance hnear, h.recode _ ?_⟩
  have hlength : at_ = (s.draft.chunk.code.toList ++ v).length := by simp [hat]
  rw [Array.toList_modify, h.code, ← List.append_assoc, hlength, modify_middle, hj.patch]
  simp

/-- A patch changes neither the place nor what the function may become. -/
theorem State.Patched.keeps {at_ : Nat} (hp : s.Patched at_ () s') :
    s'.site = s.site ∧ ∀ B : Body, B.Completes s' → B.Completes s := by
  obtain ⟨-, rfl⟩ := hp
  exact ⟨rfl, fun B hB => ⟨hB.kind, hB.constants, hB.captures, hB.outer, hB.heap⟩⟩

/-- A jump without its distance was emitted. -/
theorem State.Steady.emitJump {jump : UInt16 → Instr} {at_ : Nat} (hs : s.Steady before)
    (h : emitJump jump s = .ok at_ s') : at_ = s.draft.chunk.code.size ∧
      s.Adds before s' [(jump 0xFFFF).encode] ∧ s'.site = s.site := by
  obtain ⟨-, hat, lines, -, rfl⟩ := (does_emitJump hs.live).run h
  exact ⟨hat, (State.Adds.refl hs).recode _ (by simp), rfl⟩

/-- A jump over what a step adds. -/
theorem makes_over {jump : UInt16 → Instr} {x : Compiler α} (hj : Forward jump)
    (hx : Makes before (o + 1) P x Q) : Makes before o P (do
      let at_ ← emitJump jump
      let a ← x
      patchJump at_
      return a) fun B g a w h =>
        ∃ v d, Q B g a v h ∧ UInt16.toNat d = v.length ∧ w = (jump d).encode :: v := by
  intro s a s' hs ho hp h
  obtain ⟨at_, s₁, h₁, h⟩ := run_bind.mp h
  obtain ⟨a', s₂, h₂, h⟩ := run_bind.mp h
  obtain ⟨_, s₃, h₃, h⟩ := run_bind.mp h
  obtain ⟨rfl, rfl⟩ := run_pure.mp h
  obtain ⟨rfl, hjump, hsite⟩ := hs.emitJump h₁
  obtain ⟨v, hadds, hv⟩ := hx s₁ a' s₂ hjump.steady (hjump.size.trans (ho ▸ rfl)) (hsite ▸ hp) h₂
  obtain ⟨-, hpatch⟩ := (does_patchJump hadds.steady.live).run h₃
  obtain ⟨hsite', hback⟩ := hpatch.keeps
  obtain ⟨d, hd, hall⟩ := (hjump.trans hadds).patch (v := []) hj rfl hpatch
  refine ⟨_, hall, fun B hB => ⟨v, d, ?_, hd, rfl⟩⟩
  rw [hsite', ← hsite]
  exact hv B (hback B hB)

/-- Code that is skipped if the value on top of the stack is false. -/
theorem makes_skipping {x : Compiler Unit} {Q : Body → Site → Unit → List UInt32 → Site → Prop}
    (hx : Makes before (o + 1) P x Q) : Makes before o P (skipping x) fun B g _ w h =>
      ∃ v d, Q B g () v h ∧ UInt16.toNat d = v.length ∧
        w = (Instr.jumpIfFalse d).encode :: v := by
  have heq : skipping x = do
      let at_ ← emitJump .jumpIfFalse
      let a ← x
      patchJump at_
      return a := by
    simp [skipping]
  rw [heq]
  exact makes_over .jumpIfFalse hx

/-- Code that is jumped over gives a jump of its length and its words. -/
theorem gives_skipping {x : Compiler Unit} {T : Body → Scope → Unit → List UInt32 → Prop}
    (hx : Gives before (o + 1) x fun B scope _ v => ∀ d : UInt16, d.toNat = v.length →
      T B scope () ((Instr.jumpIfFalse d).encode :: v)) : Gives before o (skipping x) T := by
  refine Makes.imp (makes_skipping hx) (fun _ => id) fun B g _ w h _ hw => ?_
  obtain ⟨v, d, ⟨rfl, hv⟩, hd, rfl⟩ := hw
  exact ⟨rfl, hv d hd⟩

/-- Code that is run if the value on top of the stack is true, and code that is run otherwise. -/
theorem makes_branching {x y : Compiler Unit}
    {Q R : Body → Site → Unit → List UInt32 → Site → Prop} (hx : Makes before (o + 1) P x Q)
    (hP : ∀ B g v h, P g → Q B g () v h → K h) (hy : ∀ o', Makes before o' K y R) :
    Makes before o P (branching x y) fun B g _ w h => ∃ v u f d d', Q B g () v f ∧ R B f () u h ∧
      UInt16.toNat d = v.length + 1 ∧ UInt16.toNat d' = u.length ∧
        w = (Instr.jumpIfFalse d).encode :: (v ++ (Instr.jump d').encode :: u) := by
  intro s a s' hs ho hp h
  obtain ⟨otherwise, s₁, h₁, h⟩ := run_bind.mp h
  obtain ⟨_, s₂, h₂, h⟩ := run_bind.mp h
  obtain ⟨stop, s₃, h₃, h⟩ := run_bind.mp h
  obtain ⟨_, s₄, h₄, h⟩ := run_bind.mp h
  obtain ⟨_, s₅, h₅, h₆⟩ := run_bind.mp h
  obtain ⟨rfl, hskip, hsite₁⟩ := hs.emitJump h₁
  obtain ⟨v, hyes, hv⟩ := hx s₁ _ s₂ hskip.steady (hskip.size.trans (ho ▸ rfl)) (hsite₁ ▸ hp) h₂
  obtain ⟨rfl, hjump, hsite₃⟩ := hyes.steady.emitJump h₃
  obtain ⟨-, hpatch⟩ := (does_patchJump hjump.steady.live).run h₄
  obtain ⟨hsite₄, hback₄⟩ := hpatch.keeps
  obtain ⟨d, hd, hfirst⟩ := ((hskip.trans hyes).trans hjump).patch (v := []) .jumpIfFalse rfl hpatch
  have hp₄ : K s₄.site := by
    rw [hsite₄, hsite₃]
    exact hP s₂.body _ _ _ (hsite₁ ▸ hp) (hv _ s₂.body_completes)
  obtain ⟨u, hno, hu⟩ := hy _ s₄ _ s₅ hfirst.steady rfl hp₄ h₅
  obtain ⟨-, hpatch'⟩ := (does_patchJump hno.steady.live).run h₆
  obtain ⟨hsite₆, hback₆⟩ := hpatch'.keeps
  have hwords : s.Adds before s₅ ((Instr.jumpIfFalse d).encode :: v ++
      (Instr.jump 0xFFFF).encode :: u) := by simpa using hfirst.trans hno
  obtain ⟨d', hd', hall⟩ := hwords.patch .jump (by
    rw [(hskip.trans hyes).size]
    simp) hpatch'
  refine ⟨_, hall, fun B hB => ⟨v, u, s₄.site, d, d', ?_, ?_, by simpa using hd, hd', by simp⟩⟩
  · have hB₄ := hno.completes (hback₆ B hB)
    rw [hsite₄, hsite₃, ← hsite₁]
    exact hv B (hjump.completes (hback₄ B hB₄))
  · rw [hsite₆]
    exact hu B (hback₆ B hB)

/-- Two branches give their words and the jumps around them. -/
theorem gives_branching {x y : Compiler Unit} {S T : Body → Scope → Unit → List UInt32 → Prop}
    (hx : Gives before (o + 1) x S) (hy : ∀ o', Gives before o' y fun B scope _ u =>
      ∀ v, S B scope () v → ∀ d d' : UInt16, d.toNat = v.length + 1 → d'.toNat = u.length →
        T B scope () ((Instr.jumpIfFalse d).encode :: (v ++ (Instr.jump d').encode :: u))) :
    Gives before o (branching x y) T := by
  refine Makes.imp (makes_branching hx (fun _ _ _ _ _ _ => trivial) hy) (fun _ => id)
    fun B g _ w h _ hw => ?_
  obtain ⟨v, u, f, d, d', ⟨rfl, hv⟩, ⟨rfl, hu⟩, hd, hd', rfl⟩ := hw
  exact ⟨rfl, hu v hv d d' hd hd'⟩

/-- A jump back to where the code was `start` words long. -/
theorem makes_emitLoop {start : Nat} : Makes before o P (emitLoop start) fun _ g _ w h =>
    h = g ∧ ∃ d : UInt16, d.toNat = o + 1 - start ∧ w = [(Instr.loop d).encode] := by
  intro s _ s' hs ho _ h
  obtain ⟨-, hnear, lines, -, rfl⟩ := (does_emitLoop hs.live).run h
  refine ⟨[(Instr.loop (s.draft.chunk.code.size + 1 - start).toUInt16).encode],
    (State.Adds.refl hs).recode _ (by simp [jumpWord]), fun B _ => ⟨rfl, _, ?_, rfl⟩⟩
  rw [toNat_distance hnear, ho]

/-- A step knows with how many words it starts. -/
theorem Makes.here {x : Nat → Compiler β} (hx : Makes before o P (x o) R) :
    Makes before o P (Compile.here >>= x) R := by
  intro s b s' hs ho hp h
  obtain ⟨_, _, hlook, h⟩ := run_bind.mp h
  obtain ⟨rfl, rfl⟩ := run_look.mp hlook
  exact hx s b s' hs ho hp (ho ▸ h)

end ScriptMachine.Compile

namespace ScriptMachine

open Compile

variable {before : Heap} {o : Nat}

/-- More than 255 arguments are refused. -/
theorem Compile.gives_checkArguments {count : Nat} : Gives before o (checkArguments count)
    fun _ _ _ w => w = [] ∧ count.toUInt8.toNat = count := by
  unfold checkArguments
  by_cases hmany : count > 255
  · rw [if_pos hmany]
    intro s _ s' _ _ _ h
    exact (run_failBefore.mp h).elim
  · rw [if_neg hmany]
    have hlt : count < 2 ^ 8 := by omega
    exact gives_pure fun _ _ => ⟨rfl, UInt8.toNat_ofNat_of_lt hlt⟩

/-- The words of a step are the code of an expression. -/
abbrev Compile.Codifies (before : Heap) (o : Nat) (e : Expr) : Prop :=
  Gives before o e.translate fun B scope _ w => e.Codes B scope w

/-- Translating arguments adds their code. -/
theorem Expr.gives_arguments {args : List Expr}
    (hargs : ∀ e ∈ args, ∀ o, Codifies before o e) :
    Gives before o (Expr.listTranslate args) fun B scope _ w => Expr.ListCodes B scope args w := by
  induction args generalizing o with
  | nil => exact gives_pure fun _ _ => .nil
  | cons e es ih =>
    obtain ⟨hfirst, hrest⟩ := List.forall_mem_cons.mp hargs
    cases es with
    | nil =>
      rw [Expr.listTranslate]
      exact (hfirst o).imp fun B scope _ w hw => by
        simpa using Expr.ListCodes.cons hw .nil
    | cons e' es =>
      rw [Expr.listTranslate]
      · exact (hfirst o).then_ fun _ v => .advance <| (ih hrest).imp fun B scope _ w hw hv =>
          .cons hv hw
      · simp

/-- Translating an expression adds its code. -/
theorem Expr.codifies (e : Expr) : Codifies before o e := by
  induction e generalizing o with
  | number x =>
    rw [Codifies, translate]
    refine .advance (gives_number.imp fun B scope _ w hw => ?_)
    obtain ⟨k, hk, rfl⟩ := hw
    exact .number hk
  | text content =>
    rw [Codifies, translate]
    refine .advance (gives_text.imp fun B scope _ w hw => ?_)
    obtain ⟨k, hk, rfl⟩ := hw
    exact .text hk
  | true_ =>
    rw [Codifies, translate, seqRight_eq_bind]
    exact .advance (gives_emit fun _ _ => .true_)
  | false_ =>
    rw [Codifies, translate, seqRight_eq_bind]
    exact .advance (gives_emit fun _ _ => .false_)
  | null =>
    rw [Codifies, translate, seqRight_eq_bind]
    exact .advance (gives_emit fun _ _ => .null)
  | group e ih =>
    rw [Codifies, translate]
    refine .advance (ih.then_ fun _ v => makes_advance fun B g _ => ⟨rfl, fun hv => ?_⟩)
    rw [List.append_nil]
    exact .group hv
  | negate e ih =>
    rw [Codifies, translate]
    exact .advance (ih.then_ fun _ v => gives_emit fun B scope hv => .negate hv)
  | not e ih =>
    rw [Codifies, translate]
    exact .advance (ih.then_ fun _ v => gives_emit fun B scope hv => .not hv)
  | variable_ name =>
    rw [Codifies, translate, seqRight_eq_bind]
    refine .advance (gives_readVariable.imp fun B scope _ w hw => ?_)
    obtain ⟨a, ha, rfl⟩ := hw
    exact .variable_ ha
  | assign name e ih =>
    rw [Codifies, translate]
    exact .advance <| gives_resolve.finding fun a => .advance <| ih.then_ fun _ v =>
      gives_emit fun B scope hv ha => .assign ha hv
  | update name op e ih =>
    rw [Codifies, translate]
    exact .advance <| gives_resolve.finding fun a => .advance <| .emit <| ih.then_ fun _ v =>
      .emit <| gives_emit fun B scope hv ha => .update ha hv
  | this =>
    rw [Codifies, translate, seqRight_eq_bind]
    refine .advance (gives_readVariable.imp fun B scope _ w hw => ?_)
    obtain ⟨a, ha, rfl⟩ := hw
    exact .this ha
  | superGet name =>
    rw [Codifies, translate]
    refine .advance <| .advance <| .advance <| gives_nameConstant.finding fun k =>
      gives_readVariable.then_ fun _ u => gives_readVariable.then_ fun _ v =>
        gives_emit fun B scope hv hu hk => ?_
    obtain ⟨a, ha, rfl⟩ := hu
    obtain ⟨b, hb, rfl⟩ := hv
    exact .superGet hk ha hb
  | superCall name args ih =>
    rw [Codifies, translate]
    refine .advance <| .advance <| .advance <| gives_nameConstant.finding fun k =>
      gives_readVariable.then_ fun _ u => .advance <| gives_checkArguments.finding fun _ =>
        (gives_arguments fun e he _ => ih e he).then_ fun _ v => .advance <|
          gives_readVariable.then_ fun _ w => gives_emit fun B scope hw hv hcount hu hk => ?_
    obtain ⟨a, ha, rfl⟩ := hu
    obtain ⟨b, hb, rfl⟩ := hw
    exact .superCall hk ha hv hcount hb
  | binary op l r hl hr =>
    rw [Codifies, translate]
    refine hl.then_ fun _ v => .advance <| hr.then_ fun _ w => gives_emitAll fun B scope hw hv => ?_
    rw [← List.append_assoc]
    exact .binary hv hw
  | both l r hl hr =>
    rw [Codifies, translate]
    exact hl.then_ fun _ v => .advance <| gives_skipping <| .emit <|
      hr.imp fun B scope _ w hw d hd hv => .both hv hw hd
  | either l r hl hr =>
    rw [Codifies, translate]
    refine hl.then_ fun _ v => .advance <| gives_branching (S := fun _ _ _ u => u = [])
      (gives_pure fun _ _ => rfl) fun _ => .emit <| hr.imp fun B scope _ w hw u hu d d' hd hd' hv => ?_
    subst hu
    exact .either hv hw hd hd'
  | call f args hf hargs =>
    rw [Codifies, translate]
    refine hf.then_ fun _ v => .advance <| gives_checkArguments.finding fun _ =>
      (gives_arguments fun e he _ => hargs e he).then_ fun _ w => .advance <|
        gives_emit fun B scope hw hcount hv => ?_
    rw [← List.append_assoc]
    exact .call hv hw hcount
  | get o name ho =>
    rw [Codifies, translate]
    exact ho.then_ fun _ v => .advance <| .advance <| gives_nameConstant.finding fun k =>
      gives_emit fun B scope hk hv => .get hv hk
  | set o name e ho he =>
    rw [Codifies, translate]
    refine ho.then_ fun _ v => .advance <| .advance <| gives_nameConstant.finding fun k => .advance <|
      he.then_ fun _ w => gives_emit fun B scope hw hk hv => ?_
    rw [← List.append_assoc]
    exact .set hv hk hw
  | updateField o name op e ho he =>
    rw [Codifies, translate]
    refine ho.then_ fun _ v => .advance <| .advance <| gives_nameConstant.finding fun k => .advance <|
      .emit <| .emit <| he.then_ fun _ w => .emit <| gives_emit fun B scope hw hk hv => ?_
    have codes := @Expr.Codes.updateField B scope _ _ name op _ _ _ hv hk hw
    simpa using codes
  | invoke o name args ho hargs =>
    rw [Codifies, translate]
    refine ho.then_ fun _ v => .advance <| .advance <| gives_nameConstant.finding fun k => .advance <|
      gives_checkArguments.finding fun _ => (gives_arguments fun e he _ => hargs e he).then_
        fun _ w => .advance <| gives_emit fun B scope hw hcount hk hv => ?_
    rw [← List.append_assoc]
    exact .invoke hv hk hw hcount

end ScriptMachine
