import ScriptMachine.Proofs.Code.WellFormed
import ScriptMachine.Proofs.Parallel.Captures

/-!
# Corresponding machines run alike

Each instruction does the same to corresponding machines, wherever their objects lie and whenever
they collect. So runs of corresponding machines go the same way to the same end.
-/

namespace ScriptMachine

/-- Instructions that are the same, but for the constant that each of them names: those stand for
each other. -/
inductive Instr.Alike (L : UInt16 → UInt16 → Prop) : Instr → Instr → Prop
  | plain {i : Instr} (plain : i.constant? = none) : Alike L i i
  | constant {k l : UInt16} (link : L k l) : Alike L (.constant k) (.constant l)
  | getGlobal {k l : UInt16} (link : L k l) : Alike L (.getGlobal k) (.getGlobal l)
  | defineGlobal {k l : UInt16} (link : L k l) : Alike L (.defineGlobal k) (.defineGlobal l)
  | setGlobal {k l : UInt16} (link : L k l) : Alike L (.setGlobal k) (.setGlobal l)
  | getProperty {k l : UInt16} (link : L k l) : Alike L (.getProperty k) (.getProperty l)
  | setProperty {k l : UInt16} (link : L k l) : Alike L (.setProperty k) (.setProperty l)
  | getSuper {k l : UInt16} (link : L k l) : Alike L (.getSuper k) (.getSuper l)
  | invoke {k l : UInt16} {count : UInt8} (link : L k l) : Alike L (.invoke k count) (.invoke l count)
  | superInvoke {k l : UInt16} {count : UInt8} (link : L k l) :
    Alike L (.superInvoke k count) (.superInvoke l count)
  | closure {k l : UInt16} (link : L k l) : Alike L (.closure k) (.closure l)
  | class_ {k l : UInt16} (link : L k l) : Alike L (.class_ k) (.class_ l)
  | method {k l : UInt16} (link : L k l) : Alike L (.method k) (.method l)

namespace Instr

variable {L L' : UInt16 → UInt16 → Prop} {i j : Instr}

/-- Instructions that are alike in less are alike in more. -/
theorem Alike.imp (h : Alike L i j) (himp : ∀ k l, L k l → L' k l) : Alike L' i j := by
  cases h with
  | plain plain => exact .plain plain
  | constant link => exact .constant (himp _ _ link)
  | getGlobal link => exact .getGlobal (himp _ _ link)
  | defineGlobal link => exact .defineGlobal (himp _ _ link)
  | setGlobal link => exact .setGlobal (himp _ _ link)
  | getProperty link => exact .getProperty (himp _ _ link)
  | setProperty link => exact .setProperty (himp _ _ link)
  | getSuper link => exact .getSuper (himp _ _ link)
  | invoke link => exact .invoke (himp _ _ link)
  | superInvoke link => exact .superInvoke (himp _ _ link)
  | closure link => exact .closure (himp _ _ link)
  | class_ link => exact .class_ (himp _ _ link)
  | method link => exact .method (himp _ _ link)

/-- An instruction is like itself if constants stand for themselves. -/
theorem alike_refl (i : Instr) (hL : ∀ k, L k k) : Alike L i i := by
  cases i with
  | constant k => exact .constant (hL k)
  | getGlobal k => exact .getGlobal (hL k)
  | defineGlobal k => exact .defineGlobal (hL k)
  | setGlobal k => exact .setGlobal (hL k)
  | getProperty k => exact .getProperty (hL k)
  | setProperty k => exact .setProperty (hL k)
  | getSuper k => exact .getSuper (hL k)
  | invoke k _ => exact .invoke (hL k)
  | superInvoke k _ => exact .superInvoke (hL k)
  | closure k => exact .closure (hL k)
  | class_ k => exact .class_ (hL k)
  | method k => exact .method (hL k)
  | _ => exact .plain rfl

end Instr

/-- At `o` and `o'` the scripts of a passage have the instructions `i` and `j`, which do the same:
they do not return, work on no upvalue, and read no slot of a script itself. -/
structure Passage.Shares (e : Passage) (h : Heap) (o o' : Nat) (i j : Instr) : Prop where
  left : e.left.chunk.code[o]?.bind Instr.decode? = some i
  right : e.right.chunk.code[o']?.bind Instr.decode? = some j
  alike : Instr.Alike e.links i j
  stays : i ≠ .return_
  slot : ∀ k, i = .getLocal k → 0 < k.toNat
  upvalue : i.upvalue? = none
  captures : ∀ k x a, i = .closure k →
    (e.left.chunk.constants[k.toNat]?).bind Value.toHandle? = some x →
    h.object? x = some (.function a) → ∀ c < a.upvalueCount,
      e.left.chunk.code[o + 1 + c]? = e.right.chunk.code[o' + 1 + c]? ∧
        ∀ word, e.left.chunk.code[o + 1 + c]? = some word →
          (Capture.decode word).isLocal ∧ 0 < (Capture.decode word).index.toNat

/-- Whether code is shared depends on the objects only. -/
theorem Passage.Shares.congr {e : Passage} {h h' : Heap} {o o' : Nat} {i j : Instr}
    (hs : e.Shares h o o' i j) (hsame : ∀ x, h'.object? x = h.object? x) : e.Shares h' o o' i j :=
  { hs with captures := fun k x a hi hx ha => hs.captures k x a hi hx (hsame x ▸ ha) }

namespace Exec

open Pairing

variable {α β γ δ : Type} {p q : Pairing} {m n : Machine} {v w : Value} {x y : Handle}
  {T : Pairing → γ → δ → Machine → Machine → Prop}

/-! ### Operators -/

/-- The same two numbers are taken, or the operands fail alike. -/
theorem agree_popNumbers {operator : Symbol} (hm : p.Machines m n)
    (habove : p.terms.Above (m.stack.size - 2)) :
    Agree p (fun _ a b _ _ => a = b) (popNumbers operator m) (popNumbers operator n) := by
  refine agree_peek hm (habove.mono (by omega)) fun b b' hb => ?_
  refine agree_peek hm habove fun a a' ha => ?_
  rw [ha.toFloat?, hb.toFloat?]
  generalize a'.toFloat? = x
  generalize b'.toFloat? = y
  match x, y with
  | some _, some _ =>
    exact agree_drop hm fun _ _ hm => agree_drop hm fun _ _ hm => agree_pure hm rfl
  | none, _ | some _, none => exact agree_raiseMismatch hm (.cons ha (.cons hb .nil))

/-- Arithmetic on the same numbers agrees. -/
theorem agree_arithmetic {operator : Symbol} {f : Float → Float → Value}
    (hf : ∀ a b, (f a b).toHandle? = none) (hm : p.Machines m n)
    (habove : p.terms.Above (m.stack.size - 2)) :
    Agree p Any (arithmetic operator f m) (arithmetic operator f n) :=
  (agree_popNumbers hm habove).bind fun _ a _ _ _ _ hm h => h ▸ (agree_push hm (.plain (hf a.1 a.2))).any

/-- Addition agrees, of numbers as of strings. -/
theorem agree_add (hm : p.Machines m n) (habove : p.terms.Above (m.stack.size - 2)) :
    Agree p Any (add m) (add n) := by
  refine agree_peek hm (habove.mono (by omega)) fun b b' hb => ?_
  refine agree_peek hm habove fun a a' ha => ?_
  rw [ha.toFloat?, hb.toFloat?]
  generalize a'.toFloat? = x
  generalize b'.toFloat? = y
  match x, y with
  | some _, some _ =>
    refine agree_drop hm fun _ _ hm => ?_
    exact agree_drop hm fun _ _ hm => (agree_push hm (.plain (Value.toHandle?_ofFloat _))).any
  | none, _ | some _, none =>
    refine agree_readHeap (hm.heaps.string? ha) fun s s' _ _ hs => hs ▸ ?_
    refine agree_readHeap (hm.heaps.string? hb) fun t t' _ _ ht => ht ▸ ?_
    match s, t with
    | some _, some _ =>
      refine (agree_intern hm).bind fun _ _ _ _ _ _ hm hg => ?_
      refine agree_drop hm fun _ _ hm => ?_
      exact agree_drop hm fun _ _ hm => (agree_push hm (.reference hg.pair)).any
    | none, _ | some _, none => exact agree_raiseMismatch hm (.cons ha (.cons hb .nil))

/-- Negation agrees. -/
theorem agree_negate (hm : p.Machines m n) (habove : p.terms.Above (m.stack.size - 1)) :
    Agree p Any (negate m) (negate n) := by
  refine agree_peek hm habove fun v w hvw => ?_
  rw [hvw.toFloat?]
  cases w.toFloat? with
  | some _ =>
    exact agree_drop hm fun _ _ hm => (agree_push hm (.plain (Value.toHandle?_ofFloat _))).any
  | none => exact agree_raiseMismatch hm (.cons hvw .nil)

/-- Paired values are equal alike: strings are interned on both sides. -/
theorem agree_equal (hm : p.Machines m n) (habove : p.terms.Above (m.stack.size - 2)) :
    Agree p Any (equal m) (equal n) := by
  refine agree_pop hm (habove.mono (by omega)) fun b b' _ hb hm => ?_
  have hsize : m.stack.pop.size - 1 = m.stack.size - 2 := by rw [Array.size_pop, Nat.sub_sub]
  refine agree_pop hm (hsize ▸ habove) fun a a' _ ha hm => ?_
  rw [ha.same hb]
  exact (agree_push hm (.plain (Value.toHandle?_ofBool _))).any

/-! ### Globals and properties -/

section Names

variable {k l : UInt16} (hm : p.Machines m n) (hkl : p.Constants m n k l)

include hm hkl

/-- The same global variable is read. -/
theorem agree_getGlobal :
    Agree p Any (getGlobal k m) (getGlobal l n) := by
  refine agree_constantHandle hm hkl fun x y hxy _ _ _ => ?_
  refine agree_readHeap (hm.heaps.key hxy) fun k l _ _ hk => ?_
  refine agree_look_related (hm.globals.get? hk) fun a b hfound => ?_
  cases hfound with
  | some hvw => exact (agree_push hm hvw).any
  | none => exact agree_textOf hm hxy fun _ => agree_raise hm

/-- The same global variable is defined. -/
theorem agree_defineGlobal (habove : p.terms.Above (m.stack.size - 1)) :
    Agree p Any (defineGlobal k m) (defineGlobal l n) := by
  refine agree_constantHandle hm hkl fun x y hxy _ _ _ => ?_
  refine agree_readHeap (hm.heaps.key hxy) fun k l _ _ hk => ?_
  refine agree_peek hm habove fun v w hvw => ?_
  exact (agree_setGlobal hm hk hvw).bind fun _ _ _ _ _ _ hm' _ => (agree_drop_last hm').any

/-- The same global variable is assigned, or is not defined on either side. -/
theorem agree_assignGlobal (habove : p.terms.Above (m.stack.size - 1)) :
    Agree p Any (assignGlobal k m) (assignGlobal l n) := by
  refine agree_constantHandle hm hkl fun x y hxy _ _ _ => ?_
  refine agree_readHeap (hm.heaps.key hxy) fun k l _ _ hk => ?_
  refine agree_peek hm habove fun v w hvw => ?_
  refine (agree_setGlobal hm hk hvw).bind fun q a b m₁ n₁ _ hm₁ h => ?_
  obtain ⟨rfl, rfl⟩ := h
  split
  · exact (agree_eraseGlobal hm₁ hk).andThen fun _ _ _ _ hm₂ =>
      agree_textOf hm₂ hxy fun _ => agree_raise hm₂
  · exact agree_pure hm₁ trivial

/-- The same property is read. -/
theorem agree_getProperty (habove : p.terms.Above (m.stack.size - 1)) :
    Agree p Any (getProperty k m) (getProperty l n) := by
  refine agree_peek hm habove fun v w hvw => ?_
  refine agree_readHeap (hm.heaps.instance? hvw) fun i j _ _ hij => ?_
  cases hij with
  | none => exact agree_raiseNotAnInstance hm hvw
  | @some i j hij =>
    obtain ⟨-, -, -, hobject⟩ := hij
    cases hobject with
    | instance_ class_ fields =>
      refine agree_constantHandle hm hkl fun x y hxy _ _ _ => ?_
      refine agree_readHeap (hm.heaps.key hxy) fun a b _ _ hk => ?_
      have hfield := fields.get? hk
      generalize i.2.fields.get? a = c at hfield
      generalize j.2.fields.get? b = d at hfield
      cases hfield with
      | some hfield => exact agree_drop hm fun _ _ hm => (agree_push hm hfield).any
      | none => exact agree_bindMethod hm class_ hxy habove

/-- The same field is assigned. -/
theorem agree_setProperty (habove : p.terms.Above (m.stack.size - 2)) :
    Agree p Any (setProperty k m) (setProperty l n) := by
  refine agree_peek hm habove fun v w hvw => ?_
  refine agree_readHeap (hm.heaps.instance? hvw) fun i j _ _ hij => ?_
  have hrel := hvw.toHandle?
  cases hij with
  | none =>
    generalize v.toHandle? = a at hrel
    generalize w.toHandle? = b at hrel
    cases hrel <;> exact agree_raiseNotAnInstance hm hvw
  | some _ =>
    generalize v.toHandle? = a at hrel
    generalize w.toHandle? = b at hrel
    cases hrel with
    | none => exact agree_raiseNotAnInstance hm hvw
    | some htarget =>
      refine agree_constantHandle hm hkl fun x y hxy _ _ _ => ?_
      refine agree_readHeap (hm.heaps.key hxy) fun a b _ _ hk => ?_
      refine agree_peek hm (habove.mono (by omega)) fun c d hcd => ?_
      refine (agree_setField hm htarget hk hcd).andThen fun _ _ _ _ hm => ?_
      refine agree_drop hm fun _ _ hm => ?_
      exact agree_drop hm fun _ _ hm => (agree_push hm hcd).any

end Names

/-- The same text is printed. -/
theorem agree_print (hm : p.Machines m n) (habove : p.terms.Above (m.stack.size - 1)) :
    Agree p Any (print m) (print n) :=
  agree_pop hm habove fun _ _ _ hvw hm =>
    agree_readHeap (hm.heaps.display hvw) fun s _ _ _ hst => hst ▸ (agree_printLine s hm).any

/-! ### Classes -/

/-- Paired classes are made. -/
theorem agree_makeClass {k l : UInt16} (hm : p.Machines m n) (hkl : p.Constants m n k l) :
    Agree p Any (perform (.class_ k) m) (perform (.class_ l) n) := by
  refine agree_constantHandle hm hkl fun x y hxy _ _ _ => ?_
  have hobject : p.Objects (.class_ ⟨x, Table.empty⟩) (.class_ ⟨y, Table.empty⟩) :=
    .class_ hxy tables_empty
  exact (agree_alloc hm hobject nofun nofun).bind fun _ _ _ _ _ _ hm hg =>
    (agree_push hm (.reference hg.pair)).any

/-- Paired classes inherit alike. -/
theorem agree_inherit (hm : p.Machines m n) (habove : p.terms.Above (m.stack.size - 2)) :
    Agree p Any (inherit m) (inherit n) := by
  refine agree_peek hm habove fun v w hvw => ?_
  have hother : Agree p Any
      ((do
        let found ← readHeap (·.typeName v)
        raise (.invalidSuperclass found) : Exec Unit) m)
      ((do
        let found ← readHeap (·.typeName w)
        raise (.invalidSuperclass found) : Exec Unit) n) :=
    agree_readHeap (hm.heaps.typeName hvw) fun _ _ _ _ hst => hst ▸ agree_raise hm
  refine agree_readHeap (hm.heaps.kind? hvw) fun k k' _ _ hk => hk ▸ ?_
  split
  · refine agree_peek hm (habove.mono (by omega)) fun a b hab => ?_
    refine agree_handleOf hab fun x y _ _ hxy => ?_
    refine agree_handleOf hvw fun x' y' _ _ hsuper => ?_
    exact (agree_inheritMethods hm hxy hsuper).andThen fun _ _ _ _ hm => (agree_drop_last hm).any
  · exact hother

/-- Paired methods are added alike. -/
theorem agree_addMethod {k l : UInt16} (hm : p.Machines m n) (hkl : p.Constants m n k l)
    (habove : p.terms.Above (m.stack.size - 2)) : Agree p Any (addMethod k m) (addMethod l n) := by
  refine agree_constantHandle hm hkl fun x y hxy _ _ _ => ?_
  refine agree_readHeap (hm.heaps.key hxy) fun k l _ _ hk => ?_
  refine agree_peek hm (habove.mono (by omega)) fun v w hvw => ?_
  refine agree_peek hm habove fun a b hab => ?_
  refine agree_handleOf hab fun x y _ _ hclass => ?_
  exact (agree_setMethod hm hclass hk hvw).andThen fun _ _ _ _ hm => (agree_drop_last hm).any

/-! ### Instructions -/

/-- Innermost functions of the same script are left alike. -/
theorem agree_return (hm : p.Machines m n) (habove : p.terms.Above (m.stack.size - 1))
    (hframes : p.terms.Above (m.frames.size - 1)) :
    Agree p (fun _ a b _ _ => a = b) (return_ m) (return_ n) := by
  refine agree_pop hm habove fun v w _ hvw hm => ?_
  refine agree_frame hm fun f g _ _ hfg => ?_
  rw [hfg.base]
  refine Agree.andThen (.ok rfl (hm.popFrame hframes) rfl) fun _ _ _ _ hm => ?_
  refine (agree_closeUpvalues hm).andThen fun _ _ _ _ hm => ?_
  refine (agree_cutStack hm).andThen fun _ _ m n hm => ?_
  refine agree_look ?_ fun last => ?_
  · rw [Array.isEmpty, Array.isEmpty, hm.frames.size]
  · split
    · exact agree_pure hm rfl
    · exact (agree_push hm hvw).andThen fun _ _ _ _ hm => agree_pure hm rfl

/-- What has to be compared for the instructions `i` and `j` to do the same: the constants that
they name, and the slots and upvalues that they work on. -/
structure Fits (p : Pairing) (m n : Machine) (i j : Instr) : Prop where
  alike : Instr.Alike (p.Constants m n) i j
  operands : 0 < i.operands → p.terms.Above (m.stack.size - i.operands)
  slot : ∀ k f, i = .getLocal k → m.frames.back? = some f → p.terms.Above (f.base + k.toNat)
  upvalue : ∀ k, i.upvalue? = some k → p.terms.Above (m.frames.size - 1)
  captures : ∀ k f x a, i = .closure k → m.frames.back? = some f →
    (f.chunk.constants[k.toNat]?).bind Value.toHandle? = some x →
    m.heap.object? x = some (.function a) → Ahead p.terms m n a.upvalueCount

/-- An instruction does the same to corresponding machines. -/
theorem agree_perform {i j : Instr} (hm : p.Machines m n) (hij : Fits p m n i j) :
    Agree p Any (perform i m) (perform j n) := by
  have hbool (b : Bool) : (Value.ofBool b).toHandle? = none := Value.toHandle?_ofBool b
  have hfloat (a : Float) : (Value.ofFloat a).toHandle? = none := Value.toHandle?_ofFloat a
  have habove := hij.operands
  cases hij.alike with
  | constant hkl => exact agree_constant hm hkl fun v w hvw _ _ _ => (agree_push hm hvw).any
  | getGlobal hkl => exact agree_getGlobal hm hkl
  | defineGlobal hkl => exact agree_defineGlobal hm hkl (habove (Nat.succ_pos _))
  | setGlobal hkl => exact agree_assignGlobal hm hkl (habove (Nat.succ_pos _))
  | getProperty hkl => exact agree_getProperty hm hkl (habove (Nat.succ_pos _))
  | setProperty hkl => exact agree_setProperty hm hkl (habove (Nat.succ_pos _))
  | getSuper hkl =>
    have habove := habove (Nat.succ_pos _)
    refine agree_constantHandle hm hkl fun x y hxy _ _ _ => ?_
    refine agree_pop hm (habove.mono (by simp only [Instr.operands]; omega)) fun v w _ hvw hm => ?_
    refine agree_handleOf hvw fun _ _ _ _ hclass => agree_bindMethod hm hclass hxy ?_
    exact habove.mono (by simp only [Instr.operands, Array.size_pop]; omega)
  | @invoke k l count hkl =>
    exact agree_constantHandle hm hkl fun x y hxy _ _ _ =>
      agree_invoke hm hxy (habove (Nat.succ_pos _))
  | @superInvoke k l count hkl =>
    have habove := habove (Nat.succ_pos _)
    refine agree_constantHandle hm hkl fun x y hxy _ _ _ => ?_
    refine agree_pop hm (habove.mono (by simp only [Instr.operands]; omega)) fun v w _ hvw hm => ?_
    refine agree_handleOf hvw fun _ _ _ _ hclass => agree_invokeFromClass hm hclass hxy ?_
    exact habove.mono (by simp only [Instr.operands, Array.size_pop]; omega)
  | @closure k l hkl =>
    exact agree_makeClosure hm hkl fun f x a => hij.captures k f x a rfl
  | class_ hkl => exact agree_makeClass hm hkl
  | method hkl => exact agree_addMethod hm hkl (habove (Nat.succ_pos _))
  | plain plain =>
    cases i with
    | constant | getGlobal | defineGlobal | setGlobal | getProperty | setProperty | getSuper
    | invoke | superInvoke | closure | class_ | method => cases plain
    | null => exact (agree_push hm (.plain Value.toHandle?_null)).any
    | true_ => exact (agree_push hm (.plain (hbool true))).any
    | false_ => exact (agree_push hm (.plain (hbool false))).any
    | pop => exact (agree_drop_last hm).any
    | duplicate =>
      exact agree_peek hm (habove (Nat.succ_pos _)) fun v w hvw => (agree_push hm hvw).any
    | getLocal slot =>
      refine agree_frame hm fun f g hf _ hfg => ?_
      rw [← hfg.base]
      exact agree_readSlot hm (hij.slot slot f rfl hf) fun v w hvw => (agree_push hm hvw).any
    | setLocal slot =>
      refine agree_frame hm fun f g _ _ hfg => ?_
      rw [hfg.base]
      exact agree_peek hm (habove (Nat.succ_pos _)) fun v w hvw => (agree_writeSlot hm hvw).any
    | getUpvalue index =>
      exact agree_frameUpvalue hm (hij.upvalue index rfl) fun x y hxy _ _ =>
        agree_readUpvalue hm hxy fun v w hvw => (agree_push hm hvw).any
    | setUpvalue index =>
      exact agree_frameUpvalue hm (hij.upvalue index rfl) fun x y hxy _ _ =>
        agree_peek hm (habove (Nat.succ_pos _)) fun v w hvw => agree_writeUpvalue hm hxy hvw
    | equal => exact agree_equal hm (habove (Nat.succ_pos _))
    | greater =>
      rw [perform]
      exact agree_arithmetic (fun _ _ => hbool _) hm (habove (Nat.succ_pos _))
    | less =>
      rw [perform]
      exact agree_arithmetic (fun _ _ => hbool _) hm (habove (Nat.succ_pos _))
    | add => exact agree_add hm (habove (Nat.succ_pos _))
    | subtract =>
      rw [perform]
      exact agree_arithmetic (fun _ _ => hfloat _) hm (habove (Nat.succ_pos _))
    | multiply =>
      rw [perform]
      exact agree_arithmetic (fun _ _ => hfloat _) hm (habove (Nat.succ_pos _))
    | divide =>
      rw [perform]
      exact agree_arithmetic (fun _ _ => hfloat _) hm (habove (Nat.succ_pos _))
    | not =>
      refine agree_pop hm (habove (Nat.succ_pos _)) fun v w _ hvw hm => ?_
      rw [hvw.isFalsey]
      exact (agree_push hm (.plain (hbool _))).any
    | negate => exact agree_negate hm (habove (Nat.succ_pos _))
    | print => exact agree_print hm (habove (Nat.succ_pos _))
    | jump distance => exact (agree_skip hm).any
    | jumpIfFalse distance =>
      refine agree_peek hm (habove (Nat.succ_pos _)) fun v w hvw => ?_
      rw [hvw.isFalsey]
      split
      · exact (agree_skip hm).any
      · exact agree_pure hm trivial
    | loop distance => exact (agree_goBack hm).any
    | call count =>
      have habove := habove (Nat.succ_pos _)
      exact agree_peek hm habove fun v w hvw => agree_callValue hm hvw habove
    | closeUpvalue =>
      exact agree_slotAt hm fun top _ => (agree_closeUpvalues hm).andThen fun _ _ _ _ hm =>
        (agree_drop_last hm).any
    | inherit => exact agree_inherit hm (habove (Nat.succ_pos _))
    | return_ => exact agree_pure hm trivial

/-! ### Runs -/

/-- Keeping the next instruction in the journal changes nothing else, or faults. -/
theorem noteInstruction_cases (m : Machine) :
    (∃ h, noteInstruction m = .ok () { m with heap := h } ∧ m.heap.Alike h) ∨
      ∃ f m', noteInstruction m = .error (.fault f) m' := by
  show (∃ h, (if m.heap.journal.keeps .trace then _ else _ : Exec Unit) m = _ ∧ _) ∨
    ∃ f m', (if m.heap.journal.keeps .trace then _ else _ : Exec Unit) m = _
  split
  · cases hf : m.frames.back? with
    | none =>
      have hframe : frame m = .error (.fault .noFrame) m := by rw [frame, hf]
      refine .inr ⟨.noFrame, m, ?_⟩
      show EStateM.bind _ _ _ = _
      rw [EStateM.bind, hframe]
    | some f =>
      have hframe : frame m = .ok f m := by rw [frame, hf]
      rw [bind_eq hframe, look_bind]
      cases instructionText m f with
      | ok text => exact .inl ⟨_, rfl, Heap.alike_note _ _ _⟩
      | error e => exact .inr ⟨e, m, rfl⟩
  · exact .inl ⟨m.heap, rfl, .refl _⟩

/-- The machines correspond as before, and differ from those before in what no script sees. -/
def Unseen (p : Pairing) (m n : Machine) (q : Pairing) (_ : α) (_ : β) (m' n' : Machine) : Prop :=
  q = p ∧ (∃ h, m' = { m with heap := h } ∧ m.heap.Alike h) ∧
    ∃ h, n' = { n with heap := h } ∧ n.heap.Alike h

/-- Journals are not compared. -/
theorem agree_noteInstruction (hm : p.Machines m n) :
    Agree p (Unseen p m n) (noteInstruction m) (noteInstruction n) := by
  rcases noteInstruction_cases m with ⟨h, hx, ha⟩ | ⟨f, m', hx⟩
  · rcases noteInstruction_cases n with ⟨h', hy, ha'⟩ | ⟨f, n', hy⟩
    · rw [hx, hy]
      exact .ok rfl (hm.alike ha ha') ⟨rfl, ⟨h, rfl, ha⟩, h', rfl, ha'⟩
    · rw [hy]
      exact .faultRight
  · rw [hx]
    exact .faultLeft

/-- Functions of the same script do the same instruction. -/
theorem fits_of_above {f g : Frame} {word word' : UInt32} {m' n' : Machine} {i : Instr}
    (hf : Fetched m f word m') (hg : Fetched n g word' n') (hm : p.Machines m n)
    (hm' : p.Machines m' n') (hfg : p.Frames (m.frames.size - 1) f g)
    (habove : p.terms.Above (m.frames.size - 1))
    (hoperands : 0 < i.operands → p.terms.Above (m.stack.size - i.operands)) :
    word = word' ∧ Fits p m' n' i i := by
  obtain ⟨hclosures, hip, hbase⟩ := hfg.pair habove
  have hchunks := hm.chunks (Array.mem_of_back? hf.back) (Array.mem_of_back? hg.back) hclosures
  have hword := hf.word
  rw [hchunks.code, hip, hg.word] at hword
  have habove' : p.terms.Above (m'.frames.size - 1) := hf.size ▸ habove
  refine ⟨(Option.some.inj hword).symm, Instr.alike_refl i fun k => ?_, hf.stack ▸ hoperands,
    fun k f' _ hf' => ?_, fun _ _ => habove', fun _ _ _ _ _ _ _ _ => ahead_of_above hm' habove'⟩
  · intro f' g' hf' hg'
    obtain rfl := Option.some.inj (hf.back?.symm.trans hf')
    obtain rfl := Option.some.inj (hg.back?.symm.trans hg')
    have hrel := forall₂_getElem? hchunks.constants k.toNat
    rwa [Array.getElem?_toList, Array.getElem?_toList] at hrel
  · obtain rfl := Option.some.inj (hf.back?.symm.trans hf')
    exact hbase.mono (Nat.le_add_right _ _)

/-- Different scripts do the same instruction of the passage that they share. -/
theorem fits_of_shares {e : Passage} {f g : Frame} {word word' : UInt32} {m' n' : Machine}
    {i j : Instr} (hf : Fetched m f word m') (hg : Fetched n g word' n')
    (hleft : e.left.Plays f) (hright : e.right.Plays g) (hlinked : p.Linked e)
    (hshares : e.Shares m.heap f.ip g.ip i j)
    (hoperands : 0 < i.operands → p.terms.Above (m.stack.size - i.operands)) :
    Instr.decode? word = some i ∧ Instr.decode? word' = some j ∧ Fits p m' n' i j := by
  have hword := hshares.left
  rw [← hleft.chunk, hf.word] at hword
  have hword' := hshares.right
  rw [← hright.chunk, hg.word] at hword'
  refine ⟨hword, hword', hshares.alike.imp fun k l hkl => ?_, hf.stack ▸ hoperands,
    fun k f' hk _ => .inr (Nat.lt_of_lt_of_le (hshares.slot k hk) (Nat.le_add_left _ _)),
    fun k hk => ?_, fun k f' x a hi hf' hx ha => ?_⟩
  · intro f' g' hf' hg'
    obtain rfl := Option.some.inj (hf.back?.symm.trans hf')
    obtain rfl := Option.some.inj (hg.back?.symm.trans hg')
    show Option.Rel p.Values f.chunk.constants[k.toNat]? g.chunk.constants[l.toNat]?
    rw [hleft.chunk, hright.chunk]
    exact hlinked k l hkl
  · cases hshares.upvalue.symm.trans hk
  · obtain rfl := Option.some.inj (hf.back?.symm.trans hf')
    dsimp only at hx
    rw [hleft.chunk] at hx
    rw [hf.heap] at ha
    intro f' g' hf' hg' c hc
    obtain rfl := Option.some.inj (hf.back?.symm.trans hf')
    obtain rfl := Option.some.inj (hg.back?.symm.trans hg')
    dsimp only
    rw [hleft.chunk, hright.chunk]
    obtain ⟨hsame, hlocal⟩ := hshares.captures k x a hi hx ha c hc
    refine ⟨hsame, fun word hword => ?_⟩
    obtain ⟨hlocal, hpos⟩ := hlocal word hword
    rw [Seen, if_pos hlocal]
    exact .inr (Nat.lt_of_lt_of_le hpos (Nat.le_add_left _ _))

/-- Corresponding machines fetch instructions that do the same. None that returns is fetched in the
passage that different scripts share. -/
theorem fits_of_fetched {f g : Frame} {word word' : UInt32} {m' n' : Machine} {i : Instr}
    (hf : Fetched m f word m') (hg : Fetched n g word' n') (hm : p.Machines m n)
    (hm' : p.Machines m' n') (hfg : p.Frames (m.frames.size - 1) f g)
    (hi : Instr.decode? word = some i)
    (hoperands : 0 < i.operands → p.terms.Above (m.stack.size - i.operands))
    (hshares : ∀ e, p.terms.passage = some e → m.frames.size = 1 →
      ∃ i j, e.Shares m.heap f.ip g.ip i j) :
    ∃ j, Instr.decode? word' = some j ∧ Fits p m' n' i j ∧
      (i = .return_ → p.terms.Above (m.frames.size - 1)) := by
  by_cases hframes : p.terms.Above (m.frames.size - 1)
  · obtain ⟨rfl, hfits⟩ := fits_of_above hf hg hm hm' hfg hframes hoperands
    exact ⟨i, hi, hfits, fun _ => hframes⟩
  · obtain ⟨e, he, hsize⟩ : ∃ e, p.terms.passage = some e ∧ m.frames.size = 1 := by
      rw [Terms.Above, not_or, Nat.not_lt] at hframes
      obtain ⟨e, he⟩ := Option.ne_none_iff_exists'.mp hframes.1
      have hpos := Array.size_pos_of_mem (Array.mem_of_back? hf.back)
      exact ⟨e, he, Nat.le_antisymm (Nat.le_of_sub_eq_zero (Nat.le_zero.mp hframes.2)) hpos⟩
    obtain ⟨i', j, hshared⟩ := hshares e he hsize
    cases hfg with
    | paired _ _ _ above =>
      -- the lowest frame is the script's, at the bottom of the stack
      obtain ⟨f', hf', hplays⟩ := (hm.starts e he).lowest
      have hback : m.frames.back? = some f := hf.back
      rw [Array.back?_eq_getElem?, hsize] at hback
      obtain rfl := Option.some.inj (hback.symm.trans hf')
      rw [hplays.base] at above
      exact absurd (above.mono (Nat.zero_le _)) hframes
    | @scripts e' passage lowest left right place linked =>
      obtain rfl := Option.some.inj (passage.symm.trans he)
      have hword := hshared.left
      rw [← left.chunk, hf.word, Option.bind_some, hi] at hword
      obtain rfl := Option.some.inj hword
      obtain ⟨-, hj, hfits⟩ := fits_of_shares hf hg left right linked hshared hoperands
      exact ⟨j, hj, hfits, fun h => absurd h hshared.stays⟩

/-- One step of corresponding machines. Different scripts take it together in the passage that they
share. -/
theorem agree_step (hm : p.Machines m n)
    (hoperands : ∀ f i, m.frames.back? = some f → f.chunk.code[f.ip]?.bind Instr.decode? = some i →
      0 < i.operands → p.terms.Above (m.stack.size - i.operands))
    (hshares : ∀ e f g, p.terms.passage = some e → m.frames.size = 1 → m.frames.back? = some f →
      n.frames.back? = some g → ∃ i j, e.Shares m.heap f.ip g.ip i j) :
    Agree p (fun _ a b _ _ => a = b) (step m) (step n) := by
  refine (agree_noteInstruction hm).bind fun q _ _ m₁ n₁ _ hm₁ h => ?_
  obtain ⟨rfl, ⟨h, rfl, ha⟩, ⟨h', rfl, -⟩⟩ := h
  refine agree_fetch hm₁ fun f g word word' m' n' hf hg hfg hm' => ?_
  cases hi : Instr.decode? word with
  | none => exact .faultLeft
  | some i =>
    obtain ⟨j, hj, hij, hreturn⟩ := fits_of_fetched hf hg hm₁ hm' hfg hi
      (hoperands f i hf.back (by rw [hf.word, Option.bind_some, hi])) fun e he hsize => by
        obtain ⟨i', j, hshared⟩ := hshares e f g he hsize hf.back hg.back
        exact ⟨i', j, hshared.congr fun x => ha.object? x⟩
    have hperform : Agree q (fun _ a b _ _ => a = b)
        ((do
          perform i
          return Progress.running) m')
        ((do
          perform j
          return Progress.running) n') :=
      (agree_perform hm' hij).bind fun _ _ _ _ _ _ hm _ => agree_pure hm rfl
    rw [hj]
    have halike := hij.alike
    cases halike with
    | plain plain =>
      cases i with
      | return_ => exact agree_return hm' (hij.operands (Nat.succ_pos _)) (hf.size ▸ hreturn rfl)
      | _ => exact hperform
    | _ => exact hperform

/-- Corresponding machines run alike, however long. -/
theorem agree_run (fuel : Nat) (hm : p.Machines m n) (hwhole : p.terms.passage = none) :
    Agree p (fun _ a b _ _ => a = b) (run fuel m) (run fuel n) := by
  induction fuel generalizing p m n with
  | zero => exact agree_pure hm rfl
  | succ fuel ih =>
    refine (agree_step hm (fun _ _ _ _ _ => .inl hwhole)
      fun e _ _ he => by cases hwhole.symm.trans he).bind fun q a b m n hterms hm hab => hab ▸ ?_
    cases a with
    | finished => exact agree_pure hm rfl
    | running => exact ih hm (hterms ▸ hwhole)

end Exec

end ScriptMachine
