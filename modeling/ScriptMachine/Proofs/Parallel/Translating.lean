import ScriptMachine.Proofs.Parallel.Following
import ScriptMachine.Proofs.Scoping.Sectioning

/-!
# Twins that translate an expression

Two compilations that start as twins take the same steps, and after steps that both go on they are
twins again. What a step finds out on the one side corresponds to what it finds out on the other:
constants match, and variables are kept in the same place. Translating one expression in twins is
shown from these steps, by induction on the expression.
-/

namespace ScriptMachine

open Compile

namespace Compile

open Pairing

variable {p q : Pairing} {before before' : Heap} {s s' s'' t t' t'' : State}
  {v v' w w' : List UInt32} {flat : Bool} {i j : Instr} {α β γ δ : Type}

/-- Steps of twins that both go on end in twins. `R` holds of their answers and where they end. -/
def Echoes (flat : Bool) (before before' : Heap) (p : Pairing) (s t : State) (x : Compiler α)
    (y : Compiler β) (R : α → β → Pairing → State → State → Prop) : Prop :=
  p.Twins before before' s t → ∀ a b s' t', x s = .ok a s' → y t = .ok b t' →
    ∃ q v w, Tandem flat before before' p s t q s' t' v w ∧ R a b q s' t'

/-- Steps of twins that both go on end in twins. -/
abbrev Along (flat : Bool) (before before' : Heap) (p : Pairing) (s t : State)
    (x y : Compiler Unit) : Prop :=
  Echoes flat before before' p s t x y fun _ _ _ _ _ => True

section Rules

variable {x : Compiler α} {y : Compiler β} {f : α → Compiler γ} {g : β → Compiler δ}
  {Q : α → β → Pairing → State → State → Prop} {R : γ → δ → Pairing → State → State → Prop}

/-- One step after another, each knowing what the ones before it added. -/
theorem Echoes.then_ (hx : Echoes flat before before' p s t x y Q)
    (hf : ∀ {a b q s' t' v w}, Tandem flat before before' p s t q s' t' v w → Q a b q s' t' →
      Echoes flat before before' q s' t' (f a) (g b) R) :
    Echoes flat before before' p s t (x >>= f) (y >>= g) R := by
  intro hs a b s' t' hxs hyt
  obtain ⟨a₁, s₁, hx₁, hf₁⟩ := run_bind.mp hxs
  obtain ⟨b₁, t₁, hy₁, hg₁⟩ := run_bind.mp hyt
  obtain ⟨q, v, w, htandem, hq⟩ := hx hs a₁ b₁ s₁ t₁ hx₁ hy₁
  obtain ⟨r, v', w', htandem', hr⟩ :=
    hf htandem hq htandem.twins a b s' t' hf₁ hg₁
  exact ⟨r, _, _, htandem.trans htandem', hr⟩

/-- A flat step is a step. -/
theorem Echoes.loose (h : Echoes true before before' p s t x y Q) :
    Echoes flat before before' p s t x y Q := by
  intro hs a b s' t' hxs hyt
  obtain ⟨q, v, w, htandem, hq⟩ := h hs a b s' t' hxs hyt
  exact ⟨q, v, w, htandem.loose, hq⟩

/-- A step after a flat one. -/
theorem Echoes.flat_then (hx : Echoes true before before' p s t x y Q)
    (hf : ∀ {a b q s' t' v w}, Tandem true before before' p s t q s' t' v w → Q a b q s' t' →
      Echoes flat before before' q s' t' (f a) (g b) R) :
    Echoes flat before before' p s t (x >>= f) (y >>= g) R := by
  intro hs a b s' t' hxs hyt
  obtain ⟨a₁, s₁, hx₁, hf₁⟩ := run_bind.mp hxs
  obtain ⟨b₁, t₁, hy₁, hg₁⟩ := run_bind.mp hyt
  obtain ⟨q, v, w, htandem, hq⟩ := hx hs a₁ b₁ s₁ t₁ hx₁ hy₁
  obtain ⟨r, v', w', htandem', hr⟩ :=
    hf htandem hq htandem.twins a b s' t' hf₁ hg₁
  exact ⟨r, _, _, htandem.loose.trans htandem', hr⟩

/-- Giving values back echoes if they are related. -/
theorem echoes_pure {a : α} {b : β} (hQ : Q a b p s t) :
    Echoes flat before before' p s t (pure a) (pure b) Q := by
  intro hs a' b' s' t' hxs hyt
  obtain ⟨rfl, rfl⟩ := run_pure.mp hxs
  obtain ⟨rfl, rfl⟩ := run_pure.mp hyt
  exact ⟨p, [], [], .refl hs, hQ⟩

/-- Both sides may do nothing. -/
theorem along_pure : Along flat before before' p s t (pure ()) (pure ()) := echoes_pure trivial

/-- A state of twins is looked at. -/
theorem Echoes.look {k : State → α} {l : State → β}
    (h : p.Twins before before' s t → Echoes flat before before' p s t (f (k s)) (g (l t)) R) :
    Echoes flat before before' p s t (Compile.look k >>= f) (Compile.look l >>= g) R := by
  intro hs a b s' t' hxs hyt
  obtain ⟨_, _, hlook, hf⟩ := run_bind.mp hxs
  obtain ⟨rfl, rfl⟩ := run_look.mp hlook
  obtain ⟨_, _, hlook, hg⟩ := run_bind.mp hyt
  obtain ⟨rfl, rfl⟩ := run_look.mp hlook
  exact h hs hs a b s' t' hf hg

/-- Twins go to places alike. -/
theorem along_resite {x y : Compiler Unit} (f f' : Site → Site)
    (hx : ∀ s s', x s = .ok () s' → ∃ pos, s' = s.resite pos (f s.site))
    (hy : ∀ t t', y t = .ok () t' → ∃ pos, t' = t.resite pos (f' t.site))
    (h : p.Twins before before' s t → Sites flat s (f s.site) (f' t.site)) :
    Along flat before before' p s t x y := by
  intro hs _ _ s' t' hxs hyt
  obtain ⟨pos, rfl⟩ := hx s s' hxs
  obtain ⟨pos', rfl⟩ := hy t t' hyt
  exact ⟨p, [], [], .resite hs (h hs), trivial⟩

/-- Both sides go past a token. -/
theorem along_advance : Along flat before before' p s t advance advance :=
  along_resite id id (fun s _ h => ⟨s.pos + 1, (EStateM.Result.ok.inj h).2.symm⟩)
    (fun t _ h => ⟨t.pos + 1, (EStateM.Result.ok.inj h).2.symm⟩) (sites_twins flat)

/-- Going past a token. -/
theorem Echoes.advance (h : ∀ {q s' t' v w}, Tandem flat before before' p s t q s' t' v w →
      Echoes flat before before' q s' t' x y Q) :
    Echoes flat before before' p s t (Compile.advance >>= fun _ => x)
      (Compile.advance >>= fun _ => y) Q :=
  along_advance.then_ fun ht _ => h ht

/-- Both sides emit instructions that are alike. -/
theorem along_emit (hij : p.Emits s t i j) : Along flat before before' p s t (emit i) (emit j) := by
  intro hs _ _ s' t' hxs hyt
  exact ⟨p, _, _, (Tandem.emit hs hij hxs hyt).loose, trivial⟩

/-- After an instruction was emitted. -/
theorem Echoes.emit (hij : p.Emits s t i j)
    (h : ∀ {q s' t' v w}, Tandem flat before before' p s t q s' t' v w →
      Echoes flat before before' q s' t' x y Q) :
    Echoes flat before before' p s t (Compile.emit i >>= fun _ => x)
      (Compile.emit j >>= fun _ => y) Q :=
  (along_emit hij).then_ fun ht _ => h ht

/-- Both sides emit the same instructions without constants. -/
theorem along_emitAll {is : List Instr} (his : ∀ i ∈ is, i.constant? = none ∧ i.Outermost) :
    Along flat before before' p s t (emitAll is) (emitAll is) := by
  induction is generalizing p s t with
  | nil => exact along_pure
  | cons i is ih =>
    obtain ⟨⟨hplain, houtermost⟩, hrest⟩ := List.forall_mem_cons.mp his
    exact .emit (.plain hplain houtermost) fun _ => ih hrest

/-! ### Constants and variables -/

/-- The constants of a name match. -/
theorem echoes_nameConstant {name : String} : Echoes flat before before' p s t (nameConstant name)
    (nameConstant name) fun k l q s' t' => q.Matches s' t' k l := by
  refine Echoes.then_ (Q := fun x y q s' t' => q.Pairs x y ∧ s'.heap.Covers [x] ∧
    t'.heap.Covers [y]) ?_ fun {x y q s' t' v w} _ hxy => ?_
  · intro hs x y s' t' hxs hyt
    obtain ⟨q, ht, hpair, hx, hy, -⟩ := Tandem.intern hs hxs hyt
    exact ⟨q, [], [], ht.loose, hpair, hx, hy⟩
  · obtain ⟨hpair, hx, hy⟩ := hxy
    intro hs k l s' t' hxs hyt
    obtain ⟨ht, hmatches⟩ := Tandem.makeConstant hs (.reference hpair) (fun r hr => by
      rw [Value.toHandle?_ofHandle, Option.some.injEq] at hr
      exact hr ▸ hx) (fun r hr => by
      rw [Value.toHandle?_ofHandle, Option.some.injEq] at hr
      exact hr ▸ hy) hxs hyt
    exact ⟨q, [], [], ht.loose, hmatches⟩

/-- A text is loaded. -/
theorem along_text {content : String} : Along flat before before' p s t
    (intern content >>= fun r => emitConstant (.ofHandle r))
    (intern content >>= fun r => emitConstant (.ofHandle r)) := by
  have hassoc : (intern content >>= fun r => emitConstant (.ofHandle r)) =
      nameConstant content >>= fun k => emit (.constant k) := by
    simp [nameConstant, emitConstant]
  rw [hassoc]
  exact echoes_nameConstant.then_ fun _ hk =>
    along_emit (.of_alike (.constant hk) (.of_free rfl))

/-- A number is loaded. -/
theorem along_number {x : Float} : Along flat before before' p s t (emitConstant (.ofFloat x))
    (emitConstant (.ofFloat x)) := by
  refine Echoes.then_ (Q := fun k l q s' t' => q.Matches s' t' k l) ?_ fun _ hk =>
    along_emit (.of_alike (.constant hk) (.of_free rfl))
  intro hs k l s' t' hxs hyt
  have hnone (r : Handle) (hr : (Value.ofFloat x).toHandle? = some r) : False := by
    rw [Value.toHandle?_ofFloat] at hr
    cases hr
  obtain ⟨ht, hmatches⟩ := Tandem.makeConstant hs
    (.plain (Value.toHandle?_ofFloat x)) (fun r hr => (hnone r hr).elim)
    (fun r hr => (hnone r hr).elim) hxs hyt
  exact ⟨p, [], [], ht.loose, hmatches⟩

/-- A name is looked for alike. -/
theorem echoes_resolve {name : String} (hname : name ≠ "") : Echoes flat before before' p s t
    (resolve name) (resolve name) fun a b q s' t' => q.Accesses s' t' a b := by
  refine .look fun hs => ?_
  rw [← find?_same hs.drafts.twin.locals]
  generalize hfind : Local.find? name s.draft.locals = found
  rcases found with _ | ⟨slot, _ | _⟩
  · refine Echoes.then_ (Q := fun a b _ _ _ => a = b) ?_ fun {a b q s' t' v w} ht hab => ?_
    · intro hs a b s' t' hxs hyt
      obtain ⟨ht, hab⟩ := Tandem.captureVariable hs hname hxs hyt
      exact ⟨p, [], [], ht.loose, hab⟩
    · subst hab
      cases a with
      | some index => exact echoes_pure .upvalue
      | none => exact echoes_nameConstant.then_ fun _ hk => echoes_pure (.global hk)
  · intro _ _ _ _ _ hxs
    exact (run_failBefore.mp hxs).elim
  · exact echoes_pure (.local_ fun hscript => (hs.drafts.grounded hscript).find?_pos hname hfind)

/-- A variable is read. -/
theorem along_readVariable {name : String} (hname : name ≠ "") :
    Along flat before before' p s t (readVariable name) (readVariable name) :=
  (echoes_resolve hname).then_ fun _ ha => along_emit ha.get

/-! ### Jumps -/

/-- Twins emit a jump without its distance. -/
theorem Tandem.emitJump {jump : UInt16 → Instr} {a b : Nat} (hs : p.Twins before before' s t)
    (hj : Forward jump) (hx : emitJump jump s = .ok a s') (hy : emitJump jump t = .ok b t') :
    a = s.draft.chunk.code.size ∧ b = t.draft.chunk.code.size ∧
      Tandem true before before' p s t p s' t' [(jump 0xFFFF).encode] [(jump 0xFFFF).encode] := by
  obtain ⟨-, rfl, hx⟩ := (does_emitJump hs.left).run hx
  obtain ⟨-, rfl, hy⟩ := (does_emitJump hs.right).run hy
  refine ⟨rfl, rfl, .emitted hs (.plain ?_ ?_) hx hy⟩
  · cases hj <;> rfl
  · cases hj <;> exact .of_free rfl

/-- Patching a jump leaves the size of the code. -/
theorem State.Patched.size {at_ : Nat} (h : s.Patched at_ () s') :
    s'.draft.chunk.code.size = s.draft.chunk.code.size := by
  obtain ⟨-, rfl⟩ := h
  exact Array.size_modify

/-- A jump over what a step adds. -/
theorem Echoes.over {jump : UInt16 → Instr} {R : α → β → Pairing → State → State → Prop}
    (hj : Forward jump) (h : ∀ {q s' t' v w}, Tandem flat before before' p s t q s' t' v w →
      Echoes flat before before' q s' t' x y Q)
    (hR : ∀ {a b q s' t' s'' t''}, s''.draft.chunk.code.size = s'.draft.chunk.code.size →
      t''.draft.chunk.code.size = t'.draft.chunk.code.size → Q a b q s' t' → R a b q s'' t'') :
    Echoes flat before before' p s t (do
      let at_ ← emitJump jump
      let a ← x
      patchJump at_
      return a) (do
      let at_ ← emitJump jump
      let a ← y
      patchJump at_
      return a) R := by
  intro hs a b s' t' hxs hyt
  obtain ⟨at_, s₁, hx₁, hxs⟩ := run_bind.mp hxs
  obtain ⟨_, s₂, hx₂, hxs⟩ := run_bind.mp hxs
  obtain ⟨_, s₃, hx₃, hxs⟩ := run_bind.mp hxs
  obtain ⟨rfl, rfl⟩ := run_pure.mp hxs
  obtain ⟨at', t₁, hy₁, hyt⟩ := run_bind.mp hyt
  obtain ⟨_, t₂, hy₂, hyt⟩ := run_bind.mp hyt
  obtain ⟨_, t₃, hy₃, hyt⟩ := run_bind.mp hyt
  obtain ⟨rfl, rfl⟩ := run_pure.mp hyt
  obtain ⟨rfl, rfl, hjump⟩ := Tandem.emitJump hs hj hx₁ hy₁
  obtain ⟨q, v, w, hbody, hq⟩ := h hjump.loose hjump.twins _ _ s₂ t₂ hx₂ hy₂
  obtain ⟨-, hpatch⟩ := (does_patchJump hbody.left.live).run hx₃
  obtain ⟨-, hpatch'⟩ := (does_patchJump hbody.right.live).run hy₃
  obtain ⟨d, -, hall⟩ := Tandem.patch (v := []) (w := []) hs hj (hjump.loose.trans hbody) rfl rfl rfl hpatch
    hpatch' fun hscript => ⟨.nil, hbody.words (hjump.left.enclosing_nil.mpr hscript)⟩
  exact ⟨q, _, _, hall, hR hpatch.size hpatch'.size hq⟩

/-- Code that is skipped if the value on top of the stack is false. -/
theorem Echoes.skipping {x y : Compiler Unit}
    (h : ∀ {q s' t' v w}, Tandem flat before before' p s t q s' t' v w →
      Along flat before before' q s' t' x y) :
    Along flat before before' p s t (Compile.skipping x) (Compile.skipping y) := by
  have heq (x : Compiler Unit) : Compile.skipping x = do
      let at_ ← emitJump .jumpIfFalse
      let a ← x
      patchJump at_
      return a := by
    simp [Compile.skipping]
  rw [heq, heq]
  exact .over .jumpIfFalse h fun _ _ => id

/-- Code that is run if the value on top of the stack is true, and code that is run otherwise. -/
theorem Echoes.branching {x x' y y' : Compiler Unit}
    (h : ∀ {q s' t' v w}, Tandem flat before before' p s t q s' t' v w →
      Along flat before before' q s' t' x y)
    (h' : ∀ {q s' t' v w}, Tandem flat before before' p s t q s' t' v w →
      Along flat before before' q s' t' x' y') :
    Along flat before before' p s t (Compile.branching x x') (Compile.branching y y') := by
  intro hs _ _ s' t' hxs hyt
  obtain ⟨at_, s₁, hx₁, hxs⟩ := run_bind.mp hxs
  obtain ⟨_, s₂, hx₂, hxs⟩ := run_bind.mp hxs
  obtain ⟨stop, s₃, hx₃, hxs⟩ := run_bind.mp hxs
  obtain ⟨_, s₄, hx₄, hxs⟩ := run_bind.mp hxs
  obtain ⟨_, s₅, hx₅, hx₆⟩ := run_bind.mp hxs
  obtain ⟨at', t₁, hy₁, hyt⟩ := run_bind.mp hyt
  obtain ⟨_, t₂, hy₂, hyt⟩ := run_bind.mp hyt
  obtain ⟨stop', t₃, hy₃, hyt⟩ := run_bind.mp hyt
  obtain ⟨_, t₄, hy₄, hyt⟩ := run_bind.mp hyt
  obtain ⟨_, t₅, hy₅, hy₆⟩ := run_bind.mp hyt
  obtain ⟨rfl, rfl, hskip⟩ := Tandem.emitJump hs .jumpIfFalse hx₁ hy₁
  obtain ⟨q, v, w, hyes, -⟩ := h hskip.loose hskip.twins _ _ s₂ t₂ hx₂ hy₂
  obtain ⟨rfl, rfl, hjump⟩ := Tandem.emitJump hyes.twins .jump hx₃ hy₃
  obtain ⟨-, hpatch⟩ := (does_patchJump hjump.left.live).run hx₄
  obtain ⟨-, hpatch'⟩ := (does_patchJump hjump.right.live).run hy₄
  obtain ⟨d, -, hfirst⟩ := Tandem.patch (v := []) (w := []) hs .jumpIfFalse
    (hskip.loose.trans (hyes.trans hjump.loose)) rfl rfl rfl hpatch hpatch' fun hscript =>
      ⟨.nil, (hyes.trans hjump.loose).words (hskip.left.enclosing_nil.mpr hscript)⟩
  obtain ⟨r, u, u', hno, -⟩ := h' hfirst hfirst.twins _ _ s₅ t₅ hx₅ hy₅
  obtain ⟨-, hpatch₂⟩ := (does_patchJump hno.left.live).run hx₆
  obtain ⟨-, hpatch₂'⟩ := (does_patchJump hno.right.live).run hy₆
  have hlength := hyes.length hskip.twins
  have hall : Tandem flat before before' p s t r s₅ t₅
      ((Instr.jumpIfFalse d).encode :: v ++ (Instr.jump 0xFFFF).encode :: u)
      ((Instr.jumpIfFalse d).encode :: w ++ (Instr.jump 0xFFFF).encode :: u') := by
    simpa using hfirst.trans hno
  -- the code that is run if the value is true stays aligned when the jumps behind it are patched
  have hfirst_words (hscript : s.enclosing = []) : Aligned (r.Matches s₅ t₅) s₅.Counts
      ((Instr.jumpIfFalse d).encode :: v) ((Instr.jumpIfFalse d).encode :: w) := by
    obtain ⟨-, rfl⟩ := hpatch
    obtain ⟨-, rfl⟩ := hpatch'
    refine .instr (.plain rfl) (.of_free rfl) ((hyes.words
      (hskip.left.enclosing_nil.mpr hscript)).imp (fun _ _ hkl => ?_) fun _ _ hk => ?_)
    · exact (hkl.later hjump).recode.later hno
    · exact hno.left.counts (hjump.left.counts hk)
  obtain ⟨d', -, hdone⟩ := Tandem.patch hs .jump hall
    ((hskip.left.trans hyes.left).size.trans (by simp))
    ((hskip.right.trans hyes.right).size.trans (by simp)) (by simp [hlength]) hpatch₂ hpatch₂'
    fun hscript => ⟨hfirst_words hscript, hno.words (hfirst.left.enclosing_nil.mpr hscript)⟩
  exact ⟨r, _, _, hdone, trivial⟩

/-- Where code of twins starts that is jumped back to. -/
def Level (s t : State) (m n : Nat) : Prop :=
  n + s.draft.chunk.code.size = m + t.draft.chunk.code.size

/-- Places that correspond still do when more code is emitted. -/
theorem Level.later {m n : Nat} (h : Level s t m n) (hs : p.Twins before before' s t)
    (ht : Tandem flat before before' p s t q s' t' v w) : Level s' t' m n := by
  have := ht.length hs
  have := ht.left.size
  have := ht.right.size
  unfold Level at h ⊢
  omega

/-- A step knows where the code starts that it adds. -/
theorem Echoes.here {f : Nat → Compiler γ} {g : Nat → Compiler δ}
    (h : ∀ {m n}, p.Twins before before' s t → Level s t m n →
      Echoes flat before before' p s t (f m) (g n) R) :
    Echoes flat before before' p s t (Compile.here >>= f) (Compile.here >>= g) R :=
  .look fun hs => h hs (Nat.add_comm _ _)

/-- Jumps back to code that started level have the same distance. -/
theorem along_emitLoop {m n : Nat} (h : Level s t m n) :
    Along flat before before' p s t (emitLoop m) (emitLoop n) := by
  intro hs _ _ s' t' hxs hyt
  obtain ⟨-, -, hx⟩ := (does_emitLoop hs.left).run hxs
  obtain ⟨-, -, hy⟩ := (does_emitLoop hs.right).run hyt
  have hdistance : t.draft.chunk.code.size + 1 - n = s.draft.chunk.code.size + 1 - m := by
    unfold Level at h
    omega
  rw [hdistance] at hy
  have hloop : p.Emits s t (.loop (s.draft.chunk.code.size + 1 - m).toUInt16)
      (.loop (s.draft.chunk.code.size + 1 - m).toUInt16) := .plain rfl (.of_free rfl)
  exact ⟨p, _, _, (Tandem.emitted hs hloop hx hy).loose, trivial⟩

end Rules

end Compile

/-! ### Expressions -/

section Expressions

open Pairing

variable {p : Pairing} {before before' : Heap} {s t : State} {flat : Bool}

/-- Arithmetic may stand outside of all functions and names no constant. -/
theorem Arithmetic.outermost (op : Arithmetic) : op.instr.constant? = none ∧ op.instr.Outermost := by
  cases op <;> exact ⟨rfl, .of_free rfl⟩

/-- Binary operators may stand outside of all functions and name no constant. -/
theorem BinaryOp.outermost (op : BinaryOp) : ∀ i ∈ op.code, i.constant? = none ∧ i.Outermost := by
  intro i hi
  cases op with
  | arithmetic op =>
    rw [List.mem_singleton.mp hi]
    exact op.outermost
  | equal | notEqual | greater | greaterEqual | less | lessEqual =>
    simp only [BinaryOp.code, List.mem_cons, List.not_mem_nil, or_false] at hi
    rcases hi with rfl | rfl <;> exact ⟨rfl, .of_free rfl⟩

/-- More than 255 arguments are refused. -/
theorem Compile.along_checkArguments {count : Nat} :
    Along flat before before' p s t (checkArguments count) (checkArguments count) := by
  unfold checkArguments
  by_cases hmany : count > 255
  · rw [if_pos hmany]
    intro _ _ _ _ _ hxs
    exact (run_failBefore.mp hxs).elim
  · rw [if_neg hmany]
    exact along_pure

/-- Arguments are translated alike, if each of them is. -/
theorem Expr.along_arguments {args : List Expr} (hargs : ∀ e ∈ args, ∀ {p s t},
      Along flat before before' p s t e.translate e.translate) :
    Along flat before before' p s t (Expr.listTranslate args) (Expr.listTranslate args) := by
  induction args generalizing p s t with
  | nil => exact along_pure
  | cons e es ih =>
    obtain ⟨hfirst, hrest⟩ := List.forall_mem_cons.mp hargs
    cases es with
    | nil =>
      rw [Expr.listTranslate]
      exact hfirst
    | cons e' es =>
      rw [Expr.listTranslate]
      · exact hfirst.then_ fun _ _ => .advance fun _ => ih hrest
      · simp

/-- Twins that translate an expression are twins again. -/
theorem Expr.along {e : Expr} (hp : ProperNames e.tokens) :
    Along flat before before' p s t e.translate e.translate := by
  induction e generalizing p s t with
  | number x =>
    rw [translate]
    exact .advance fun _ => along_number
  | text content =>
    rw [translate]
    exact .advance fun _ => along_text
  | true_ | false_ | null =>
    rw [translate, seqRight_eq_bind]
    exact .advance fun _ => along_emit (.plain rfl (.of_free rfl))
  | group e ih =>
    simp [Expr.tokens] at hp
    rw [translate]
    exact .advance fun _ => (ih hp).then_ fun _ _ => along_advance
  | negate e ih | not e ih =>
    simp [Expr.tokens] at hp
    rw [translate]
    exact .advance fun _ => (ih hp).then_ fun _ _ => along_emit (.plain rfl (.of_free rfl))
  | variable_ name =>
    simp [Expr.tokens] at hp
    rw [translate, seqRight_eq_bind]
    exact .advance fun _ => along_readVariable hp.nonempty
  | assign name e ih =>
    simp [Expr.tokens] at hp
    rw [translate]
    exact .advance fun _ => (echoes_resolve hp.1.nonempty).then_ fun _ ha => .advance fun ht =>
      (ih hp.2).then_ fun ht' _ => along_emit ((ha.later ht).later ht').set
  | update name op e ih =>
    simp [Expr.tokens] at hp
    rw [translate]
    exact .advance fun _ => (echoes_resolve hp.1.nonempty).then_ fun _ ha => .advance fun h₁ =>
      .emit (ha.later h₁).get fun h₂ => (ih hp.2).then_ fun h₃ _ =>
        .emit (.plain op.outermost.1 op.outermost.2) fun h₄ =>
          along_emit ((((ha.later h₁).later h₂).later h₃).later h₄).set
  | this =>
    rw [translate, seqRight_eq_bind]
    exact .advance fun _ => along_readVariable (by decide)
  | superGet name =>
    rw [translate]
    exact .advance fun _ => .advance fun _ => .advance fun _ => echoes_nameConstant.then_ fun _ hk =>
      (along_readVariable (by decide)).then_ fun h₁ _ => (along_readVariable (by decide)).then_
        fun h₂ _ => along_emit (.of_alike (.getSuper ((hk.later h₁).later h₂)) (.of_free rfl))
  | superCall name args ih =>
    simp [Expr.tokens] at hp
    have hargs := properNames_listTokens hp.2
    rw [translate]
    exact .advance fun _ => .advance fun _ => .advance fun _ => echoes_nameConstant.then_ fun _ hk =>
      (along_readVariable (by decide)).then_ fun h₁ _ => .advance fun h₂ =>
        along_checkArguments.then_ fun h₃ _ =>
          (along_arguments fun e he => ih e he (hargs e he)).then_ fun h₄ _ => .advance fun h₅ =>
            (along_readVariable (by decide)).then_ fun h₆ _ => along_emit (.of_alike (.superInvoke
              ((((((hk.later h₁).later h₂).later h₃).later h₄).later h₅).later h₆))
                (.of_free rfl))
  | binary op l r hl hr =>
    simp [Expr.tokens] at hp
    rw [translate]
    exact (hl hp.1).then_ fun _ _ => .advance fun _ => (hr hp.2).then_ fun _ _ => along_emitAll op.outermost
  | both l r hl hr =>
    simp [Expr.tokens] at hp
    rw [translate]
    exact (hl hp.1).then_ fun _ _ => .advance fun _ => .skipping fun _ =>
      .emit (.plain rfl (.of_free rfl)) fun _ => hr hp.2
  | either l r hl hr =>
    simp [Expr.tokens] at hp
    rw [translate]
    exact (hl hp.1).then_ fun _ _ => .advance fun _ => .branching (fun _ => along_pure) fun _ =>
      .emit (.plain rfl (.of_free rfl)) fun _ => hr hp.2
  | call f args hf ih =>
    simp [Expr.tokens] at hp
    have hargs := properNames_listTokens hp.2
    rw [translate]
    exact (hf hp.1).then_ fun _ _ => .advance fun _ => along_checkArguments.then_ fun _ _ =>
      (along_arguments fun e he => ih e he (hargs e he)).then_ fun _ _ => .advance fun _ =>
        along_emit (.plain rfl (.of_free rfl))
  | get o name ih =>
    simp [Expr.tokens] at hp
    rw [translate]
    exact (ih hp.1).then_ fun _ _ => .advance fun _ => .advance fun _ =>
      echoes_nameConstant.then_ fun _ hk =>
        along_emit (.of_alike (.getProperty hk) (.of_free rfl))
  | set o name e ho he =>
    simp [Expr.tokens] at hp
    rw [translate]
    exact (ho hp.1).then_ fun _ _ => .advance fun _ => .advance fun _ =>
      echoes_nameConstant.then_ fun _ hk => .advance fun h₁ => (he hp.2.2).then_ fun h₂ _ =>
        along_emit (.of_alike (.setProperty ((hk.later h₁).later h₂)) (.of_free rfl))
  | updateField o name op e ho he =>
    simp [Expr.tokens] at hp
    rw [translate]
    exact (ho hp.1).then_ fun _ _ => .advance fun _ => .advance fun _ =>
      echoes_nameConstant.then_ fun _ hk => .advance fun h₁ =>
        .emit (.plain rfl (.of_free rfl)) fun h₂ =>
          .emit (.of_alike (.getProperty ((hk.later h₁).later h₂)) (.of_free rfl)) fun h₃ =>
            (he hp.2.2).then_ fun h₄ _ =>
              .emit (.plain op.outermost.1 op.outermost.2)
                fun h₅ => along_emit (.of_alike (.setProperty
                  (((((hk.later h₁).later h₂).later h₃).later h₄).later h₅)) (.of_free rfl))
  | invoke o name args ho ih =>
    simp [Expr.tokens] at hp
    have hargs := properNames_listTokens hp.2.2
    rw [translate]
    exact (ho hp.1).then_ fun _ _ => .advance fun _ => .advance fun _ =>
      echoes_nameConstant.then_ fun _ hk => .advance fun h₁ => along_checkArguments.then_ fun h₂ _ =>
        (along_arguments fun e he => ih e he (hargs e he)).then_ fun h₃ _ => .advance fun h₄ =>
          along_emit (.of_alike (.invoke ((((hk.later h₁).later h₂).later h₃).later h₄))
            (.of_free rfl))

end Expressions

end ScriptMachine
