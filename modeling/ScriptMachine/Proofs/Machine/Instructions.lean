import ScriptMachine.Machine.Step
import ScriptMachine.Proofs.Machine.Calls
import ScriptMachine.Proofs.Machine.Capture

/-!
# Instructions at work

An instruction whose effect on shapes of the stack is known does that to the stack of the machine:
one lemma for each thing that instructions do, and from these one for every instruction that is
followed by the next. Returns, jumps and closures follow.
-/

namespace ScriptMachine

namespace Machine

variable {m : Machine} {W : World} {S T : List Slot} {g : Option String} {act : List Activation}
  {x y : Slot} {v : Value} {s : String}

/-- More may be said of a slot whose value is seen. -/
theorem Shows.learn (hm : m.Shows W ⟨S ++ x :: T, g, act⟩) (hx : x.captured = false)
    (hget : m.stack[S.length]? = some v) (hv : W.Holds v y.content) :
    m.Shows W ⟨S ++ y :: T, g, act⟩ := by
  refine hm.restack (T := S ++ y :: T) ?_ fun j c hj => ?_
  · obtain ⟨us, vs, hstack, hus, hvs⟩ := Exec.forall₂_append_right hm.stack
    cases hvs with
    | @cons u _ vs _ _ hvs =>
      rw [hstack]
      refine List.rel_append hus (.cons ?_ hvs)
      rw [← Array.getElem?_toList, hstack, List.getElem?_append_right (Nat.le_of_eq hus.length_eq),
        hus.length_eq, Nat.sub_self] at hget
      exact Option.some.inj hget ▸ hv
  · rcases Nat.lt_trichotomy j S.length with hlt | rfl | hlt
    · rwa [List.getElem?_append_left hlt] at hj ⊢
    · rw [Exec.getElem?_middle, Option.some.injEq] at hj
      rw [hj] at hx
      cases hx
    · obtain ⟨i, rfl⟩ := Nat.exists_eq_add_of_lt hlt
      rw [List.getElem?_append_right (by omega)] at hj ⊢
      rwa [show S.length + i + 1 - S.length = i + 1 by omega, List.getElem?_cons_succ] at hj ⊢

/-- It may be learned which global holds a class. -/
theorem Shows.know (hm : m.Shows W ⟨S, g, act⟩) (hd : W.DefinesClass m.globals s) :
    m.Shows W ⟨S, some s, act⟩ :=
  ⟨{ hm.toTyped with known := fun _ hs => Option.some.inj hs ▸ hd }, hm.lists⟩

end Machine

namespace Exec

variable {m : Machine} {W : World} {S T below : List Slot} {g : Option String}
  {act rest : List Activation} {a : Activation} {x : Slot} {r : Handle} {v : Value} {k : UInt16}
  {s : String}

/-! ### Operators -/

/-- The value below the last is looked at, and is as its slot says. -/
theorem does_peek_second {y : Slot} (hm : m.Shows W ⟨S ++ [x] ++ [y], g, act⟩) :
    Does (peek 1 m) fun v m' => m' = m ∧ m.stack[S.length]? = some v ∧ W.Holds v x.content := by
  rw [List.append_assoc] at hm
  exact does_peek (T := [y]) hm rfl

/-- Two values are taken if they are numbers. -/
theorem does_popNumbers {operator : Symbol}
    (hm : m.Shows W ⟨S ++ [.value] ++ [.value], g, act⟩) :
    Does (popNumbers operator m) fun _ m' => m'.Shows W ⟨S, g, act⟩ := by
  refine (does_peek_top hm).bind fun b m' h => ?_
  obtain ⟨rfl, hb⟩ := h
  refine (does_peek_second hm).bind fun c m' h => ?_
  obtain ⟨rfl, -, hc⟩ := h
  have hraise : Does ((raiseMismatch operator .numbers [c, b] : Exec (Float × Float)) m')
      fun _ m' => m'.Shows W ⟨S, g, act⟩ := does_raiseMismatch hm (List.forall_mem_cons.mpr ⟨hc, List.forall_mem_singleton.mpr hb⟩)
  cases c.toFloat? with
  | none => exact hraise
  | some x =>
    cases b.toFloat? with
    | none => exact hraise
    | some y =>
      exact (does_drop hm rfl).bind fun _ _ hm' => (does_drop hm' rfl).bind fun _ _ hm' => hm'

/-- Arithmetic leaves a number or a boolean. -/
theorem does_arithmetic {operator : Symbol} {f : Float → Float → Value}
    (hm : m.Shows W ⟨S ++ [.value] ++ [.value], g, act⟩)
    (hf : ∀ x y, (f x y).toHandle? = none) :
    Does (arithmetic operator f m) fun _ m' => m'.Shows W ⟨S ++ [.value], g, act⟩ :=
  (does_popNumbers hm).bind fun _ _ hm' =>
    does_push (x := .value) hm' (World.holds_of_not_reference (hf _ _))

/-- Addition leaves a number or a new string. -/
theorem does_add (hm : m.Shows W ⟨S ++ [.value] ++ [.value], g, act⟩) :
    Does (add m) fun _ m' => ∃ V, m'.Shows V ⟨S ++ [.value], g, act⟩ := by
  refine (does_peek_top hm).bind fun b m' h => ?_
  obtain ⟨rfl, hb⟩ := h
  refine (does_peek_second hm).bind fun c m' h => ?_
  obtain ⟨rfl, -, hc⟩ := h
  have hraise : Does ((raiseMismatch .plus .numbersOrStrings [c, b] : Exec Unit) m')
      fun _ m' => ∃ V, m'.Shows V ⟨S ++ [.value], g, act⟩ :=
    does_raiseMismatch hm (List.forall_mem_cons.mpr ⟨hc, List.forall_mem_singleton.mpr hb⟩)
  -- what is done with the two texts, whichever branch comes to them
  have hjoin {f : Option Interned → Option Interned → Exec Unit}
      (hboth : ∀ x y, f (some x) (some y) = (do
        let r ← intern (x.chars ++ y.chars)
        drop
        drop
        push (.ofHandle r)))
      (hleft : ∀ u, f none u = raiseMismatch .plus .numbersOrStrings [c, b])
      (hright : ∀ x, f (some x) none = raiseMismatch .plus .numbersOrStrings [c, b]) :
      Does ((do f (← readHeap (·.string? c)) (← readHeap (·.string? b)) : Exec Unit) m')
        fun _ m' => ∃ V, m'.Shows V ⟨S ++ [.value], g, act⟩ := by
    obtain ⟨t, ht⟩ := hm.fits.string? hc
    obtain ⟨u, hu⟩ := hm.fits.string? hb
    refine does_bind_ok (readHeap_eq ht) (does_bind_ok (readHeap_eq hu) ?_)
    cases t with
    | none =>
      rw [hleft]
      exact hraise
    | some t =>
      cases u with
      | none =>
        rw [hright]
        exact hraise
      | some u =>
        rw [hboth]
        refine (does_intern _ hm).bind fun r m₁ h => ?_
        obtain ⟨V, hm₁, hr⟩ := h
        refine (does_drop hm₁ rfl).bind fun _ _ hm' => (does_drop hm' rfl).bind fun _ _ hm' => ?_
        exact (does_push (x := .value) hm' (World.holds_ofHandle hr)).imp fun _ _ hm' => ⟨V, hm'⟩
  cases c.toFloat? with
  | none => exact hjoin (fun _ _ => rfl) (fun _ => rfl) fun _ => rfl
  | some x =>
    cases b.toFloat? with
    | none => exact hjoin (fun _ _ => rfl) (fun _ => rfl) fun _ => rfl
    | some y =>
      refine (does_drop hm rfl).bind fun _ _ hm' => (does_drop hm' rfl).bind fun _ _ hm' => ?_
      exact (does_push (x := .value) hm' (World.holds_of_not_reference
        (Value.toHandle?_ofFloat _))).imp fun _ _ hm' => ⟨W, hm'⟩

/-- Negation leaves a number. -/
theorem does_negate (hm : m.Shows W ⟨S ++ [.value], g, act⟩) :
    Does (negate m) fun _ m' => m'.Shows W ⟨S ++ [.value], g, act⟩ := by
  refine (does_peek_top hm).bind fun v m' h => ?_
  obtain ⟨rfl, hv⟩ := h
  cases v.toFloat? with
  | none => exact does_raiseMismatch hm (List.forall_mem_singleton.mpr hv)
  | some x =>
    exact (does_drop hm rfl).bind fun _ _ hm' =>
      does_push (x := .value) hm' (World.holds_of_not_reference (Value.toHandle?_ofFloat _))

/-- A comparison leaves a boolean. -/
theorem does_equal (hm : m.Shows W ⟨S ++ [.value] ++ [.value], g, act⟩) :
    Does (equal m) fun _ m' => m'.Shows W ⟨S ++ [.value], g, act⟩ :=
  (does_pop hm rfl).bind fun _ _ hm' => (does_pop hm'.1 rfl).bind fun _ _ hm' =>
    does_push (x := .value) hm'.1 (World.holds_of_not_reference (Value.toHandle?_ofBool _))

/-- Printing takes its value. -/
theorem does_print (hm : m.Shows W ⟨S ++ [.value], g, act⟩) :
    Does (print m) fun _ m' => m'.Shows W ⟨S, g, act⟩ := by
  refine (does_pop hm rfl).bind fun v m' h => ?_
  obtain ⟨hm', hv⟩ := h
  obtain ⟨text, htext⟩ := hm'.fits.display hv
  exact does_bind_ok (readHeap_eq htext) (does_printLine text hm')

/-! ### Globals -/

/-- A global is read with what is known of it. -/
theorem does_getGlobal (hm : m.Shows W ⟨S, g, a :: rest⟩) (hk : a.context.Names k s)
    (hx : ∀ r v, W r = some (.text s) → m.globals.get? ⟨r, Text.hash s⟩ = some v →
      W.Holds v x.content) :
    Does (getGlobal k m) fun _ m' => m'.Shows W ⟨S ++ [x], g, a :: rest⟩ := by
  refine (does_constantHandle hm hk).bind fun name m' h => ?_
  obtain ⟨rfl, ht, -⟩ := h
  refine does_bind_ok (readHeap_eq (hm.fits.key ht)) (does_bind_ok (n := m') rfl ?_)
  dsimp only
  cases hget : m'.globals.get? ⟨name, Text.hash s⟩ with
  | some v => exact does_push hm (hx name v ht hget)
  | none =>
    refine (does_textOf hm ht).bind fun text m' h => ?_
    obtain ⟨rfl, rfl⟩ := h
    exact does_raise hm

/-- What a table gives for a key just set. -/
theorem get?_insert {t : Table} {key : Key} (ht : W.TableOk .any t) (hk : W.KeyOk key)
    (hv : W.Holds v .any) : (t.insert key v).2.get? key = some v := by
  have hinserted := ht.insert hk hv
  refine (hinserted.valid.get?_eq_some_iff (hinserted.agrees hk)).mpr ⟨key, ?_, rfl⟩
  exact ((ht.valid.insert (ht.agrees hk) v).mem key v).mpr (.inl ⟨rfl, rfl⟩)

/-- A global is defined, and holds a class if it is given one. -/
theorem does_defineGlobal (hm : m.Shows W ⟨S ++ [x], g, a :: rest⟩) (hfree : x.captured = false)
    (hk : a.context.Names k s) : Does (defineGlobal k m) fun _ m' =>
      m'.Shows W ⟨S, none, a :: rest⟩ ∧
        (x.content = .class_ → m'.Shows W ⟨S, some s, a :: rest⟩) := by
  refine (does_constantHandle hm hk).bind fun name m' h => ?_
  obtain ⟨rfl, ht, -⟩ := h
  have hkey : W.KeyOk ⟨name, Text.hash s⟩ := ⟨s, ht, rfl⟩
  refine does_bind_ok (readHeap_eq (hm.fits.key ht)) ((does_peek_top hm).bind fun v m' h => ?_)
  obtain ⟨rfl, hv⟩ := h
  refine (does_setGlobal hm hkey hv.any).bind fun _ m₁ h => ?_
  obtain ⟨hm₁, hglobals⟩ := h
  by_cases hx : x.content = .class_
  · have hclass : W.DefinesClass m₁.globals s :=
      ⟨name, v, ht, hglobals ▸ get?_insert hm.globals hkey hv.any, hx ▸ hv⟩
    exact (does_drop (hm₁.know hclass) hfree).imp fun _ _ hm' => ⟨hm'.forget, fun _ => hm'⟩
  · exact (does_drop hm₁ hfree).imp fun _ _ hm' => ⟨hm', fun h => absurd h hx⟩

/-- An assignment to a global variable leaves its value. -/
theorem does_assignGlobal (hm : m.Shows W ⟨S ++ [.value], g, a :: rest⟩)
    (hk : a.context.Names k s) : Does (assignGlobal k m) fun _ m' =>
      m'.Shows W ⟨S ++ [.value], none, a :: rest⟩ := by
  refine (does_constantHandle hm hk).bind fun name m' h => ?_
  obtain ⟨rfl, ht, -⟩ := h
  have hkey : W.KeyOk ⟨name, Text.hash s⟩ := ⟨s, ht, rfl⟩
  refine does_bind_ok (readHeap_eq (hm.fits.key ht)) ((does_peek_top hm).bind fun v m' h => ?_)
  obtain ⟨rfl, hv⟩ := h
  refine (does_setGlobal hm hkey hv).bind fun isNew m₁ h => ?_
  obtain ⟨hm₁, -⟩ := h
  cases isNew with
  | false => exact hm₁
  | true =>
    refine (does_eraseGlobal hm₁ hkey).bind fun _ m₂ hm₂ => (does_textOf hm₂ ht).bind fun _ m' h => ?_
    obtain ⟨rfl, rfl⟩ := h
    exact does_raise hm₂

/-! ### Properties and classes -/

/-- A property is a field, or a method that is bound anew. -/
theorem does_getProperty (hm : m.Shows W ⟨S ++ [.value], g, a :: rest⟩) (hk : a.context.Names k s) :
    Does (getProperty k m) fun _ m' => ∃ V, m'.Shows V ⟨S ++ [.value], g, a :: rest⟩ := by
  refine (does_peek_top hm).bind fun receiver m' h => ?_
  obtain ⟨rfl, hv⟩ := h
  rcases hm.fits.instance? hv with hnone | ⟨r, i, hi, -, -, hclass, hfields⟩
  · exact does_bind_ok (readHeap_eq hnone) (does_raiseNotAnInstance hm hv)
  · refine does_bind_ok (readHeap_eq hi) ((does_constantHandle hm hk).bind fun name m' h => ?_)
    obtain ⟨rfl, ht, -⟩ := h
    refine does_bind_ok (readHeap_eq (hm.fits.key ht)) ?_
    cases hget : i.fields.get? ⟨name, Text.hash s⟩ with
    | none => exact does_bindMethod hm hclass ht
    | some v =>
      refine (does_drop hm rfl).bind fun _ _ hm' => ?_
      exact (does_push (x := .value) hm' (hfields.get? ⟨s, ht, rfl⟩ hget)).imp fun _ _ hm' => ⟨W, hm'⟩

/-- An assignment to a field leaves its value. -/
theorem does_setProperty (hm : m.Shows W ⟨S ++ [.value] ++ [.value], g, a :: rest⟩)
    (hk : a.context.Names k s) :
    Does (setProperty k m) fun _ m' => m'.Shows W ⟨S ++ [.value], g, a :: rest⟩ := by
  refine (does_peek_second hm).bind fun target m' h => ?_
  obtain ⟨rfl, -, hv⟩ := h
  rcases hm.fits.instance? hv with hnone | ⟨r, i, hi, hat, hr, -, -⟩
  · refine does_bind_ok (readHeap_eq hnone) ?_
    have hraise := does_raiseNotAnInstance (α := Unit)
      (Q := fun _ m' => m'.Shows W ⟨S ++ [.value], g, a :: rest⟩) hm hv
    cases target.toHandle? with
    | none => exact hraise
    | some r => exact hraise
  · refine does_bind_ok (readHeap_eq hi) ?_
    rw [hat]
    refine (does_constantHandle hm hk).bind fun name m' h => ?_
    obtain ⟨rfl, ht, -⟩ := h
    refine does_bind_ok (readHeap_eq (hm.fits.key ht)) ((does_peek_top hm).bind fun v m' h => ?_)
    obtain ⟨rfl, hv⟩ := h
    refine (does_setField hm hr ⟨s, ht, rfl⟩ hv).bind fun _ _ hm' => ?_
    exact (does_drop hm' rfl).bind fun _ _ hm' => (does_drop hm' rfl).bind fun _ _ hm' =>
      does_push (x := .value) hm' hv

/-- A class declaration pushes a new class. -/
theorem does_class (hm : m.Shows W ⟨S, g, a :: rest⟩) (hk : a.context.Names k s) :
    Does (perform (.class_ k) m) fun _ m' => ∃ V, m'.Shows V ⟨S ++ [.aClass], g, a :: rest⟩ := by
  refine (does_constantHandle hm hk).bind fun name m' h => ?_
  obtain ⟨rfl, ht, -⟩ := h
  refine (does_alloc hm (.class_ ht World.tableOk_empty) (by simp) (by simp)).bind fun r m₁ h => ?_
  obtain ⟨V, hm₁, hr, -⟩ := h
  exact (does_push (x := .aClass) hm₁ ⟨r, Value.toHandle?_ofHandle r, hr⟩).imp fun _ _ hm' => ⟨V, hm'⟩

/-- Inheriting leaves the superclass for the local `super`. -/
theorem does_inherit (hm : m.Shows W ⟨S ++ [.value] ++ [.aClass], g, act⟩) :
    Does (inherit m) fun _ m' => m'.Shows W ⟨S ++ [.aClass], g, act⟩ := by
  refine (does_peek_second hm).bind fun superclass m' h => ?_
  obtain ⟨rfl, hget, hv⟩ := h
  obtain ⟨kind, hkind⟩ := hm.fits.kind? hv
  refine does_bind_ok (readHeap_eq hkind) ?_
  have hraise : Does ((do
      let found ← readHeap (·.typeName superclass)
      raise (.invalidSuperclass found) : Exec Unit) m')
      fun _ m' => m'.Shows W ⟨S ++ [.aClass], g, act⟩ := by
    obtain ⟨found, hfound⟩ := hm.fits.typeName hv
    exact does_bind_ok (readHeap_eq hfound) (does_raise hm)
  by_cases hkind' : kind = some .class_
  · subst hkind'
    have hclass := hm.fits.class_of_kind? hv hkind
    have hm : m'.Shows W ⟨S ++ [.aClass] ++ [.aClass], g, act⟩ := by
      rw [List.append_assoc] at hm ⊢
      exact hm.learn rfl hget hclass
    refine (does_peek_top hm).bind fun subclass m' h => ?_
    obtain ⟨rfl, hsub⟩ := h
    refine (does_handleOf hsub).bind fun r m' h => ?_
    obtain ⟨rfl, -, hr⟩ := h
    refine (does_handleOf hclass).bind fun x m' h => ?_
    obtain ⟨rfl, -, hx⟩ := h
    exact (does_inheritMethods hm hr hx).bind fun _ _ hm' => does_drop hm' rfl
  · rcases kind with _ | (_ | _ | _ | _ | _ | _ | _ | _)
    all_goals first | exact hraise | exact absurd rfl hkind'

/-- Adding a method leaves its class. -/
theorem does_addMethod (hm : m.Shows W ⟨S ++ [.aClass] ++ [.aClosure], g, a :: rest⟩)
    (hk : a.context.Names k s) :
    Does (addMethod k m) fun _ m' => m'.Shows W ⟨S ++ [.aClass], g, a :: rest⟩ := by
  refine (does_constantHandle hm hk).bind fun name m' h => ?_
  obtain ⟨rfl, ht, -⟩ := h
  refine does_bind_ok (readHeap_eq (hm.fits.key ht)) ((does_peek_top hm).bind fun method m' h => ?_)
  obtain ⟨rfl, hmethod⟩ := h
  refine (does_peek_second hm).bind fun v m' h => ?_
  obtain ⟨rfl, -, hv⟩ := h
  refine (does_handleOf hv).bind fun r m' h => ?_
  obtain ⟨rfl, -, hr⟩ := h
  exact (does_setMethod hm hr ⟨s, ht, rfl⟩ hmethod).bind fun _ _ hm' => does_drop hm' rfl

/-- A method of the superclass is bound to the receiver. -/
theorem does_getSuper (hm : m.Shows W ⟨S ++ [.value] ++ [.aClass], g, a :: rest⟩)
    (hk : a.context.Names k s) : Does (perform (.getSuper k) m) fun _ m' =>
      ∃ V, m'.Shows V ⟨S ++ [.value], g, a :: rest⟩ := by
  refine (does_constantHandle hm hk).bind fun name m' h => ?_
  obtain ⟨rfl, ht, -⟩ := h
  refine (does_pop hm rfl).bind fun v m₁ h => (does_handleOf h.2).bind fun r m' h' => ?_
  obtain ⟨rfl, -, hr⟩ := h'
  exact does_bindMethod h.1 hr ht

/-! ### Variables -/

/-- A local is pushed as its slot says. -/
theorem does_getLocal {own : List Slot} {j : UInt16}
    (hm : m.Shows W ⟨below ++ own, g, a :: rest⟩) (hbase : a.frame.base = below.length)
    (hj : own[j.toNat]? = some x) : Does (perform (.getLocal j) m) fun _ m' =>
      m'.Shows W ⟨below ++ own ++ [⟨x.content, false⟩], g, a :: rest⟩ := by
  refine (does_frame hm.toTyped).bind fun f m' h => ?_
  obtain ⟨rfl, rfl⟩ := h
  refine (does_readSlot (x := x) hm ?_).bind fun v m' h => ?_
  · rw [hbase, List.getElem?_append_right (Nat.le_add_right _ _), Nat.add_sub_cancel_left, hj]
  · obtain ⟨rfl, hv⟩ := h
    exact does_push hm hv

/-- A local is set with any value, where it may hold any. -/
theorem does_setLocal {own : List Slot} {j : UInt16}
    (hm : m.Shows W ⟨below ++ (own ++ [.value]), g, a :: rest⟩) (hbase : a.frame.base = below.length)
    (hj : own[j.toNat]? = some x) (hx : x.content = .any) :
    Does (perform (.setLocal j) m) fun _ m' =>
      m'.Shows W ⟨below ++ (own ++ [.value]), g, a :: rest⟩ := by
  refine (does_frame hm.toTyped).bind fun f m' h => ?_
  obtain ⟨rfl, rfl⟩ := h
  have hm' := hm
  rw [← List.append_assoc] at hm'
  refine (does_peek_top hm').bind fun v m' h => ?_
  obtain ⟨rfl, hv⟩ := h
  refine does_writeSlot (x := x) hm ?_ (hx ▸ hv)
  rw [hbase, List.getElem?_append_right (Nat.le_add_right _ _), Nat.add_sub_cancel_left,
    List.getElem?_append_left (List.getElem?_eq_some_iff.mp hj).1, hj]

/-- A captured variable is pushed as its capture says. -/
theorem does_getUpvalue {j : UInt16} {c : Content} (hm : m.Shows W ⟨S, g, a :: rest⟩)
    (hj : a.context.captures[j.toNat]? = some c) : Does (perform (.getUpvalue j) m) fun _ m' =>
      m'.Shows W ⟨S ++ [⟨c, false⟩], g, a :: rest⟩ := by
  refine (does_frameUpvalue hm.toTyped hj).bind fun r m' h => ?_
  obtain ⟨rfl, ht, -⟩ := h
  refine (does_readUpvalue hm ht).bind fun v m' h => ?_
  obtain ⟨rfl, hv⟩ := h
  exact does_push hm hv

/-- A captured variable is set with any value, where it may hold any. -/
theorem does_setUpvalue {j : UInt16} (hm : m.Shows W ⟨S ++ [.value], g, a :: rest⟩)
    (hj : a.context.captures[j.toNat]? = some .any) : Does (perform (.setUpvalue j) m) fun _ m' =>
      m'.Shows W ⟨S ++ [.value], g, a :: rest⟩ := by
  refine (does_frameUpvalue hm.toTyped hj).bind fun r m' h => ?_
  obtain ⟨rfl, ht, -⟩ := h
  refine (does_peek_top hm).bind fun v m' h => ?_
  obtain ⟨rfl, hv⟩ := h
  exact does_writeUpvalue hm ht hv

/-- The variable in the slot on top is closed, and the slot goes. -/
theorem does_closeUpvalue (hm : m.Shows W ⟨S ++ [x], g, act⟩) :
    Does (perform .closeUpvalue m) fun _ m' =>
      m'.Shows W ⟨S, g, act⟩ ∧ Machine.ClosedFrom S.length m m' := by
  refine (does_slotAt (T := []) hm rfl).bind fun top m' h => ?_
  obtain ⟨rfl, rfl⟩ := h
  obtain ⟨h', upper, lower, hclose, htyped, hsplit, hcloses⟩ := closeUpvalues_eq S.length hm
  obtain ⟨v, hpop, -, hrest⟩ := exists_pop htyped
  refine does_bind_ok hclose (does_bind_ok hpop ⟨⟨{ htyped with stack := hrest },
    hm.lists.close hsplit hcloses⟩, Machine.closedFrom hm.lists hsplit hcloses fun j hj => ?_⟩)
  have hsize : m'.stack.size = S.length + 1 := by
    rw [hm.size_stack, List.length_append, List.length_singleton]
  show m'.stack.pop[j]? = m'.stack[j]?
  rw [Array.getElem?_pop, if_pos (by omega)]

end Exec

end ScriptMachine
