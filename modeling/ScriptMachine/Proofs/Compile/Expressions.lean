import ScriptMachine.Proofs.Compile.Emission
import ScriptMachine.Proofs.Compile.Resolve

/-!
# Expressions

A forward jump is emitted without its distance and patched when its target is reached. What was
emitted in between is the code that the jump may skip, and it runs as it would without the jump.

Every form of expression pushes one temporary, if the expressions nested in it do. The
temporaries below stay where they are, so an operator finds its operands.
-/

namespace ScriptMachine.Compile

variable {W W' : World} {s s' : State} {before : Heap} {K : World → State → Prop}
  {Q R : View → List UInt32 → Prop} {x y : Compiler Unit}

/-- Patching leaves the picture as it is. -/
theorem State.Patched.le {at_ : Nat} {V : View} (h : s.Patched at_ () s')
    (hV : (s'.view W).Le V) : (s.view W).Le V := h.view (W := W) ▸ hV

/-- Code that a conditional jump may skip. -/
theorem writes_skip [Stable K] (hx : Writes before K x fun _ => Q) : Writes before K (do
    let stop ← emitJump .jumpIfFalse
    x
    patchJump stop : Compiler Unit) fun _ V code => ∃ w, w.length ≤ Chunk.maxDistance ∧
      Q V w ∧ code = jumpWord .jumpIfFalse w.length :: w := by
  intro s hl
  refine (does_emitJump hl).bind fun stop s₁ hl₁ _ hjump => ?_
  obtain ⟨rfl, hjump⟩ := hjump
  refine (hx s₁ hl₁).bind fun _ s₂ hl₂ _ hinner => ?_
  refine (does_patchJump hl₂).imp fun _ s₃ _ hlater hpatch => ?_
  intro W hr hk hclean
  have hfirst : Carries before W W s s₁ _ := hjump.carries hr
  obtain ⟨W', w, hw⟩ := hinner W hfirst.ready (Stable.carry hfirst hr hk) (hlater.clean hclean)
  obtain ⟨hnear, hall⟩ := Carries.patch (v := []) .jumpIfFalse (hfirst.trans hw.toCarries) rfl
    hpatch
  exact ⟨W', _, hall, fun V hV => ⟨w, hnear, hw.runs V (hpatch.le hV), rfl⟩⟩

/-- Code that a conditional jump skips, before code that is skipped otherwise. -/
theorem writes_branch [Stable K] (hx : Writes before K x fun _ => Q)
    (hy : Writes before K y fun _ => R) : Writes before K (do
      let otherwise ← emitJump .jumpIfFalse
      x
      let stop ← emitJump .jump
      patchJump otherwise
      y
      patchJump stop : Compiler Unit) fun _ V code => ∃ yes no,
        yes.length + 1 ≤ Chunk.maxDistance ∧ no.length ≤ Chunk.maxDistance ∧ Q V yes ∧ R V no ∧
          code = jumpWord .jumpIfFalse (yes.length + 1) :: yes ++ jumpWord .jump no.length :: no := by
  intro s hl
  refine (does_emitJump hl).bind fun otherwise s₁ hl₁ _ hskip => ?_
  obtain ⟨rfl, hskip⟩ := hskip
  refine (hx s₁ hl₁).bind fun _ s₂ hl₂ hlater₂ hyes => ?_
  refine (does_emitJump hl₂).bind fun stop s₃ hl₃ hlater₃ hjump => ?_
  obtain ⟨rfl, hjump⟩ := hjump
  refine (does_patchJump hl₃).bind fun _ s₄ hl₄ hlater₄ hpatch => ?_
  refine (hy s₄ hl₄).bind fun _ s₅ hl₅ hlater₅ hno => ?_
  refine (does_patchJump hl₅).imp fun _ s₆ _ hlater₆ hpatch' => ?_
  intro W hr hk hclean
  have hclean₅ := hlater₆.clean hclean
  have hclean₂ := (hlater₃.trans (hlater₄.trans hlater₅)).clean hclean₅
  have h₁ : Carries before W W s s₁ _ := hskip.carries hr
  obtain ⟨W', yes, hw⟩ := hyes W h₁.ready (Stable.carry h₁ hr hk) hclean₂
  have h₃ : Carries before W' W' s₂ s₃ _ := hjump.carries hw.ready
  obtain ⟨hnear, h₄⟩ := Carries.patch (v := []) .jumpIfFalse ((h₁.trans hw.toCarries).trans h₃) rfl
    hpatch
  obtain ⟨W'', no, hw'⟩ := hno W' h₄.ready (Stable.carry h₄ hr hk) hclean₅
  have h₅ : Carries before W W'' s s₅ (jumpWord .jumpIfFalse (yes.length + 1) :: yes ++
      (Instr.jump 0xFFFF).encode :: no) := by
    simpa using h₄.trans hw'.toCarries
  obtain ⟨hnear', h₆⟩ := Carries.patch .jump h₅ (by
    have hcode := (h₁.trans hw.toCarries).emits.code
    rw [← Array.length_toList, hcode]
    simp) hpatch'
  refine ⟨W'', _, h₆, fun V hV => ⟨yes, no, by simpa using hnear, hnear', ?_, ?_, rfl⟩⟩
  · have h := (hw'.view_le h₄.ready).trans (hpatch'.le hV)
    exact hw.runs V ((h₃.view_le hw.ready).trans (hpatch.le h))
  · exact hw'.runs V (hpatch'.le hV)

end ScriptMachine.Compile

namespace ScriptMachine.Compile

variable {W W' : World} {s s' : State} {before : Heap} {name : String}
  {K : World → State → Prop} {nested : Precedence → Compiler Unit}

/-- Nested expressions push one temporary. -/
def Nests (before : Heap) (nested : Precedence → Compiler Unit) : Prop :=
  ∀ p, Turns before Always (nested p) [] [.value]

/-- A nested expression on top of temporaries. -/
theorem Nests.push (hn : Nests before nested) (p : Precedence) (below : List Slot) :
    Turns before K (nested p) below (below ++ [.value]) := by
  have h := (hn p).frame below
  rw [List.append_nil] at h
  exact h.always

/-- An instruction that takes and leaves temporaries, on top of others. -/
theorem turns_plain {i : Instr} (n k m : Nat) (h : ∀ Γ, Plain Γ i n k) :
    Turns before K (emit i) (List.replicate (m + n) .value) (List.replicate (m + k) .value) := by
  rw [← List.replicate_append_replicate, ← List.replicate_append_replicate]
  exact (turns_emit (may_of_simple n k h)).frame _

/-- An instruction that has a name as its operand. -/
theorem turns_named {i : Instr} {k : UInt16} (n m : Nat)
    (h : ∀ Γ : CodeContext, Γ.Names k name → Plain Γ i n m) :
    Turns before (Both K (Named k name)) (emit i) (List.replicate n .value)
      (List.replicate m .value) :=
  turns_emit (may_of_plain n m fun _ _ _ hk _ hV => h _ (names_mono hk.2 hV.context))

/-- A name that was read is one that a source can spell. -/
theorem finds_expectName {what : Expectation} :
    Finds before K (expectName what) fun name => Fact (Spelled name) :=
  fun _ hl => (does_expectName hl).imp fun _ _ _ _ h W hr _ _ => ⟨W, h.1.carries hr, h.2 W hr⟩

/-- A symbol that has to be there leaves the height. -/
theorem turns_expect {symbol : Symbol} {what : Expectation} {S : List Slot} :
    Turns before K (expect symbol what) S S := turns_of_reads fun _ => does_expect

/-- A symbol that may be there leaves the height. -/
theorem turns_accept {symbol : Symbol} {S : List Slot} : Turns before K (accept symbol) S S :=
  turns_of_reads fun _ => does_accept

/-- A symbol that is allowed leaves the height. -/
theorem turns_acceptIf {allowed : Bool} {symbol : Symbol} {S : List Slot} :
    Turns before K (acceptIf allowed symbol) S S := turns_of_reads fun _ => does_acceptIf

/-- A compound assignment reads its operator, which takes two operands. -/
theorem turns_acceptCompound {allowed : Bool} {f : Option Instr → Compiler Unit}
    {S T : List Slot} [Stable K]
    (hf : ∀ op, (∀ i, op = some i → ∀ Γ, Plain Γ i 2 1) → Turns before K (f op) S T) :
    Turns before K (acceptCompound allowed >>= f) S T := by
  intro s hl
  refine (does_acceptCompound hl).bind fun op s' hl' _ h => (hf op h.2 s' hl').imp ?_
  intro _ s'' _ _ hc W hr hk hclean
  have hmoved : Carries before W W s s' [] := h.1.carries hr
  obtain ⟨W', w, hw⟩ := hc W hmoved.ready (Stable.carry hmoved hr hk) hclean
  exact ⟨W', w, hmoved.trans hw.toCarries, hw.runs⟩

/-- A variable that is not assigned to is read. -/
theorem namedVariable_get :
    namedVariable nested name false = resolve name >>= fun access => emit access.get := by
  simp [namedVariable, acceptIf, acceptCompound]

/-- A variable that is read is pushed. -/
theorem turns_get : Turns before (Fact (Spelled name)) (namedVariable nested name false) []
    [.value] := by
  rw [namedVariable_get]
  exact finds_resolve.bind fun access => turns_emit (may_get fun _ _ h => h.1)

/-- The superclass of the class around, which has one. -/
theorem turns_super :
    Turns before InSubclass (namedVariable nested "super" false) [] [.aClass] := by
  rw [namedVariable_get]
  exact finds_resolve.bind fun access => turns_emit (may_get_super fun _ _ h => h)

/-- The superclass on top of temporaries. -/
theorem turns_super_above (below : List Slot) (hin : ∀ W s, K W s → InSubclass W s) :
    Turns before K (namedVariable nested "super" false) below (below ++ [.aClass]) := by
  have htop : Turns before InSubclass (namedVariable nested "super" false) [] [.aClass] := turns_super
  have h := htop.frame below
  rw [List.append_nil] at h
  exact h.given hin

/-- The innermost class around, by whether it has a superclass. -/
def Innermost (c : Option Bool) : World → State → Prop := fun _ s => s.classes.head? = c

instance (c : Option Bool) : Stable (Innermost c) := ⟨fun hc _ hk => by
  rw [Innermost, hc.emits.classes]
  exact hk⟩

/-- The receiver can be named. -/
theorem spelled_this : Spelled "this" := by simp [Spelled]

/-- A superclass method that is called. -/
theorem turns_superInvoke {k : UInt16} {count : UInt8} :
    Turns before (Both K (Named k name)) (emit (.superInvoke k count))
      ([.value] ++ List.replicate count.toNat .value ++ [.aClass]) [.value] := by
  refine turns_emit fun W s hr hk V hV T => .instr ?_
  have hne : V.slots ++ T ≠ [] := by simp [hr.slots_ne_nil hV]
  have h := Effect.superInvoke (n := count) (g := none) (names_mono hk.2 hV.context) hne
  rwa [withValues, List.append_assoc, List.replicate_succ] at h

/-- A superclass method that is bound to the receiver. -/
theorem turns_getSuper {k : UInt16} :
    Turns before (Both K (Named k name)) (emit (.getSuper k)) [.value, .aClass] [.value] := by
  refine turns_emit fun W s hr hk V hV T => .instr (.getSuper (names_mono hk.2 hV.context) ?_)
  simp [hr.slots_ne_nil hV]

/-- The innermost class is found out. -/
theorem finds_class : Finds before K (look fun s => s.classes.head?) fun c => Innermost c :=
  fun _ hl => does_look hl fun W hr _ _ => ⟨W, State.Moved.carries (.refl _) hr, rfl⟩

/-- The code of a binary operator takes two operands. -/
theorem turns_binary {symbol : Symbol} {p : Precedence} {code : List Instr}
    (h : binary? symbol = some (p, code)) :
    Turns before Always (emitAll code) [.value, .value] [.value] := by
  have hone {i : Instr} (hi : ∀ Γ, Plain Γ i 2 1) :
      Turns before Always (emitAll [i]) [.value, .value] [.value] :=
    (turns_plain 2 1 0 hi).bind fun _ => turns_of_reads fun _ => does_pure_reads
  have htwo {i : Instr} (hi : ∀ Γ, Plain Γ i 2 1) :
      Turns before Always (emitAll [i, .not]) [.value, .value] [.value] :=
    (turns_plain 2 1 0 hi).bind fun _ => (turns_plain 1 1 0 fun _ => .not).bind fun _ =>
      turns_of_reads fun _ => does_pure_reads
  unfold binary? at h
  split at h <;> simp only [Option.some.injEq, Prod.mk.injEq, reduceCtorEq] at h <;>
    obtain ⟨-, rfl⟩ := h
  · exact hone fun _ => .add
  · exact hone fun _ => .subtract
  · exact hone fun _ => .multiply
  · exact hone fun _ => .divide
  · exact hone fun _ => .equal
  · exact htwo fun _ => .equal
  · exact hone fun _ => .greater
  · exact htwo fun _ => .less
  · exact hone fun _ => .less
  · exact htwo fun _ => .greater

section Forms

variable (hn : Nests before nested)

include hn

/-- The use of a variable, or an assignment to it. -/
theorem turns_namedVariable {canAssign : Bool} :
    Turns before (Fact (Spelled name)) (namedVariable nested name canAssign) [] [.value] := by
  have hname : ∀ (W : World) (s : State), Fact (Spelled name) W s → name ≠ "super" :=
    fun _ _ h => h.1
  refine finds_resolve.bind fun access => turns_acceptIf.bind fun assigns => ?_
  cases assigns with
  | true => exact (hn.push _ []).bind fun _ => turns_emit (may_set hname)
  | false =>
    refine turns_acceptCompound fun op hop => ?_
    cases op with
    | none => exact turns_emit (may_get hname)
    | some i =>
      refine (turns_emit (may_get hname)).bind fun _ => (hn.push _ [.value]).bind fun _ => ?_
      exact (turns_plain 2 1 0 (hop i rfl)).bind fun _ => turns_emit (may_set hname)

/-- There are as many temporaries as arguments, of which there are not too many. -/
theorem does_arguments {room : Nat} (hl : s.Live before) :
    Does before s (arguments nested room s) fun n s' =>
      n ≤ room ∧ Codes Always before s (Through [] (List.replicate n .value)) n s' := by
  induction room generalizing s with
  | zero =>
    refine (hn .assignment s hl).bind fun _ s' hl' _ _ => ?_
    exact does_failBefore hl'
  | succ room ih =>
    refine (hn .assignment s hl).bind fun _ s₁ hl₁ _ hfirst => ?_
    refine (does_accept hl₁).bind fun more s₂ hl₂ _ hm => ?_
    cases more with
    | false =>
      refine does_pure hl₂ ⟨by omega, fun W hr hk hclean => ?_⟩
      obtain ⟨pos, rfl⟩ := hm
      obtain ⟨W', v, hv⟩ := hfirst W hr hk hclean
      have hmoved : Carries before W' W' s₁ _ [] := State.Moved.carries ⟨pos, rfl⟩ hv.ready
      refine ⟨W', v ++ [], hv.toCarries.trans hmoved, fun V hV => ?_⟩
      rw [List.append_nil]
      exact hv.runs V hV
    | true =>
      refine (ih hl₂).bind fun n s₃ hl₃ hlater h => ?_
      refine does_pure hl₃ ⟨by omega, fun W hr hk hclean => ?_⟩
      obtain ⟨pos, rfl⟩ := hm
      obtain ⟨W', v, hv⟩ := hfirst W hr hk (hlater.clean hclean)
      have hmoved : Carries before W' W' s₁ _ [] := State.Moved.carries ⟨pos, rfl⟩ hv.ready
      obtain ⟨W'', w, hw⟩ := h.2 W' hmoved.ready trivial hclean
      have hrest : Compiles before W' W'' s₁ s₃ ([] ++ w) (Through [] (List.replicate n .value)) :=
        ⟨hmoved.trans hw.toCarries, hw.runs⟩
      refine ⟨W'', v ++ w, hv.trans hrest fun V v w hQ hR => ?_⟩
      have hR' := hR.frame [.value]
      rw [List.append_nil] at hR'
      exact hQ.append hR'

/-- Arguments are pushed one by one, by induction on how many may follow. -/
theorem writes_arguments : Writes before Always (arguments nested 255) fun n V w =>
    n ≤ 255 ∧ Through [] (List.replicate n .value) V w := by
  refine fun s hl => (does_arguments hn hl).imp fun n s' _ _ h W hr hk hclean => ?_
  obtain ⟨W', w, hw⟩ := h.2 W hr hk hclean
  exact ⟨W', w, hw.toCarries, fun V hV => ⟨h.1, hw.runs V hV⟩⟩

/-- The arguments of a call are temporaries, as many as the call is told. -/
theorem writes_argumentList : Writes before Always (argumentList nested) fun count =>
    Through [] (List.replicate count.toNat .value) := by
  have hfinish (n : Nat) : Writes before Always (do
      expect .rightParen .argumentsClose
      return n.toUInt8 : Compiler UInt8) fun count _ w => count = n.toUInt8 ∧ w = [] :=
    (writes_of_reads (Q := fun _ _ w => w = []) (fun _ => does_expect) fun _ _ => rfl).bind
      (fun _ => writes_pure (Q := fun count _ w => count = n.toUInt8 ∧ w = []) fun _ => ⟨rfl, rfl⟩)
      fun _ _ _ _ _ hv hw => ⟨hw.1, by rw [hv, hw.2, List.append_nil]⟩
  have hjoin (n : Nat) (count : UInt8) (V : View) (v w : List UInt32)
      (h : n ≤ 255 ∧ Through [] (List.replicate n .value) V v)
      (hw : count = n.toUInt8 ∧ w = []) :
      Through [] (List.replicate count.toNat .value) V (v ++ w) := by
    have hbyte : n.toUInt8.toNat = n := by
      have : n < 2 ^ 8 := by omega
      exact UInt8.toNat_ofNat_of_lt this
    rw [hw.1, hw.2, List.append_nil, hbyte]
    exact h.2
  refine Writes.after_reads (fun _ => does_check) fun empty => ?_
  cases empty with
  | true =>
    refine (writes_pure (Q := fun n V w => n ≤ 255 ∧ Through [] (List.replicate n .value) V w)
      fun V => ⟨by omega, fun T => .nil (.refl _)⟩).bind hfinish hjoin
  | false => exact (writes_arguments hn).bind hfinish hjoin

/-- The arguments of a call on top of what is called. -/
theorem writes_arguments_above (below : List Slot) :
    Writes before K (argumentList nested) fun count =>
      Through below (below ++ List.replicate count.toNat .value) := by
  refine ((writes_argumentList hn).always).imp fun _ _ _ h => ?_
  have := h.frame below
  rwa [List.append_nil] at this

/-- A property takes the place of its object. -/
theorem turns_property {canAssign : Bool} :
    Turns before Always (property nested canAssign) [.value] [.value] := by
  refine finds_expectName.bind fun name => finds_nameConstant.bind fun k => ?_
  refine turns_acceptIf.bind fun assigns => ?_
  cases assigns with
  | true => exact (hn.push _ [.value]).bind fun _ => turns_named 2 1 fun _ => .setProperty
  | false =>
    refine turns_acceptCompound fun op hop => ?_
    cases op with
    | some i =>
      refine (turns_plain 1 2 0 fun _ => .duplicate).bind fun _ => ?_
      refine ((turns_named 1 1 fun _ => .getProperty).frame [.value]).bind fun _ => ?_
      refine (hn.push _ [.value, .value]).bind fun _ => ?_
      refine (turns_plain 2 1 1 (hop i rfl)).bind fun _ => ?_
      exact turns_named 2 1 fun _ => .setProperty
    | none =>
      refine turns_accept.bind fun called => ?_
      cases called with
      | false => exact turns_named 1 1 fun _ => .getProperty
      | true =>
        exact (writes_arguments_above hn [.value]).turns fun count =>
          turns_named (count.toNat + 1) 1 fun _ => .invoke

/-- A method of the superclass is pushed. -/
theorem turns_superProperty : Turns before Always (superProperty nested) [] [.value] := by
  refine finds_class.bind fun c => ?_
  rcases c with _ | _ | _
  · exact writes_failBefore
  · exact writes_failBefore
  refine turns_expect.bind fun _ => finds_expectName.bind fun name => ?_
  refine finds_nameConstant.bind fun k => ?_
  refine Turns.bind (turns_get.given fun _ _ _ => spelled_this) fun _ => ?_
  refine turns_accept.bind fun called => ?_
  cases called with
  | false =>
    refine Turns.bind (turns_super_above [.value] fun _ _ h => ?_) fun _ => turns_getSuper
    exact List.mem_of_mem_head? h.1.1.2
  | true =>
    refine (writes_arguments_above hn [.value]).turns fun count => ?_
    refine Turns.bind (turns_super_above _ fun _ _ h => ?_) fun _ => turns_superInvoke
    exact List.mem_of_mem_head? h.1.1.2

omit hn in
/-- The receiver is pushed. -/
theorem turns_receiver : Turns before Always (receiver nested) [] [.value] := by
  refine Writes.after_reads (fun _ => does_look_reads) fun outside => ?_
  cases outside with
  | false => exact turns_get.given fun _ _ _ => spelled_this
  | true =>
    have hfail : Turns before Always (failBefore .thisOutsideClass : Compiler PUnit) [] [] := writes_failBefore
    exact hfail.bind fun _ => turns_get.given fun _ _ _ => spelled_this

/-- The first operand is dropped and the second pushed. -/
theorem turns_operandInstead (p : Precedence) : Turns before Always (do
    emit .pop
    nested p : Compiler Unit) [.value] [.value] :=
  (turns_plain 1 0 0 fun _ => .pop).bind fun _ => hn.push p []

/-- A conjunction leaves one of its operands. -/
theorem turns_conjunction : Turns before Always (conjunction nested) [.value] [.value] := by
  have hsecond := turns_operandInstead hn .and
  have h := writes_skip hsecond
  simp only [bind_assoc] at h
  refine fun s hl => (h s hl).imp fun _ s' _ _ hc W hr hk hclean => ?_
  obtain ⟨W', code, hw⟩ := hc W hr hk hclean
  refine ⟨W', code, hw.toCarries, fun V hV T => ?_⟩
  obtain ⟨w, hnear, hinner, rfl⟩ := hw.runs V hV
  exact .skip (by simp [hw.ready.slots_ne_nil hV]) (hinner T) hnear

/-- A disjunction leaves one of its operands. -/
theorem turns_disjunction : Turns before Always (disjunction nested) [.value] [.value] := by
  have h := writes_branch (K := Always) (writes_pure (a := ()) (Q := fun _ _ w => w = []) fun _ => rfl)
    (turns_operandInstead hn .or)
  simp only [bind_assoc, pure_bind] at h
  refine fun s hl => (h s hl).imp fun _ s' _ _ hc W hr hk hclean => ?_
  obtain ⟨W', code, hw⟩ := hc W hr hk hclean
  refine ⟨W', code, hw.toCarries, fun V hV T => ?_⟩
  obtain ⟨yes, no, hnear, hnear', rfl, hother, rfl⟩ := hw.runs V hV
  exact .branch (by simp [hw.ready.slots_ne_nil hV]) (.nil (.refl _)) (hother T) hnear hnear'

/-- What a token that starts an operand pushes. -/
theorem turns_operand {token : Token} {canAssign : Bool} :
    Turns before (Fact (∀ spelling, token = .name spelling → Spelled spelling))
      (operand nested token canAssign) [] [.value] := by
  unfold operand
  split
  · exact turns_emitConstant_number
  · exact turns_emitConstant_text
  · exact turns_plain 0 1 0 fun _ => .true_
  · exact turns_plain 0 1 0 fun _ => .false_
  · exact turns_plain 0 1 0 fun _ => .null
  · exact (hn.push _ []).bind fun _ => turns_expect
  · exact (hn.push _ []).bind fun _ => turns_plain 1 1 0 fun _ => .negate
  · exact (hn.push _ []).bind fun _ => turns_plain 1 1 0 fun _ => .not
  · next spelling => exact (turns_namedVariable hn).given fun _ _ h => h spelling rfl
  · exact turns_receiver.always
  · exact (turns_superProperty hn).always
  · exact writes_failBefore

/-- What goes on an expression takes the operand before it. -/
theorem turns_continuation {symbol : Symbol} {canAssign : Bool} :
    Turns before Always (continuation nested symbol canAssign) [.value] [.value] := by
  unfold continuation
  split
  · exact (writes_arguments_above hn [.value]).turns fun count =>
      turns_emit (may_of_simple (count.toNat + 1) 1 fun _ => .call)
  · exact turns_property hn
  · exact turns_conjunction hn
  · exact turns_disjunction hn
  · split
    · next hbinary => exact (hn.push _ [.value]).bind fun _ => turns_binary hbinary
    · exact turns_of_reads fun _ => does_pure_reads

/-- What follows an operand leaves one value, by induction on how much may follow. -/
theorem turns_continuations {p : Precedence} {canAssign : Bool} {fuel : Nat} :
    Turns before Always (continuations nested p canAssign fuel) [.value] [.value] := by
  induction fuel with
  | zero => exact turns_of_reads fun _ => does_pure_reads
  | succ fuel ih =>
    refine Writes.after_reads (fun _ => does_look_reads) fun symbol => ?_
    cases symbol with
    | none => exact turns_of_reads fun _ => does_pure_reads
    | some symbol =>
      refine Writes.after_reads (fun _ => does_advance) fun _ => ?_
      exact (turns_continuation hn).bind fun _ => ih

omit hn in
/-- A name that was read is one that a source can spell. -/
theorem finds_next? : Finds before K next? fun token =>
    Fact (∀ spelling, token = some (.name spelling) → Spelled spelling) :=
  fun _ hl => (does_next? hl).imp fun _ _ _ _ h W hr _ _ => ⟨W, h.1.carries hr, h.2 W hr⟩

/-- An expression pushes one temporary. -/
theorem turns_expressionBody {p : Precedence} :
    Turns before Always (expressionBody nested p) [] [.value] := by
  unfold expressionBody
  refine finds_next?.bind fun token => ?_
  cases token with
  | none => exact writes_failHere
  | some token =>
    refine Turns.bind ((turns_operand hn).given fun _ _ h spelling hs => h.2 spelling (by rw [hs]))
      fun _ => ?_
    refine Writes.after_reads (fun _ => does_look_reads) fun left => ?_
    refine Turns.bind (turns_continuations hn).always fun _ => ?_
    refine Writes.after_reads (fun _ => does_look_reads) fun assigns => ?_
    split
    · exact writes_failHere
    · exact turns_of_reads fun _ => does_pure_reads

end Forms

end ScriptMachine.Compile
