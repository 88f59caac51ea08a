import ScriptMachine.Machine.Call
import ScriptMachine.Proofs.Machine.Does

/-!
# Calls at work

Whatever is called, with its arguments above it on the stack, the machine is at an instruction
afterwards: at the first of the callee, or at the one behind the call with a value in place of the
callee and the arguments. Or the call fails with an error of the script.
-/

namespace ScriptMachine

namespace World

variable {W : World} {h : Heap} {r : Handle} {c : Closure} {f : Prototype}

/-- A frame for a known closure runs the closure's code from its entry. -/
theorem Fits.activation (hw : W.Fits h) (ht : W r = some .closure)
    (hclosure : h.object? r = some (.closure c)) (hfunction : h.object? c.function = some (.function f))
    (base : Nat) : ∃ a : Activation, a.frame = ⟨r, f.chunk, 0, base⟩ ∧ W.Runs h a ∧
      a.layout.Lands none 0 (.plain (entrySlots f.arity)) := by
  obtain ⟨c', captures, -, hc', hknown, hupvalues⟩ := hw.closure ht
  rw [hclosure, Option.some.injEq, Object.closure.injEq] at hc'
  subst hc'
  obtain ⟨f', -, hf', hd⟩ := hw.prototype hknown
  rw [hfunction, Option.some.injEq, Object.function.injEq] at hf'
  subst hf'
  cases hd with
  | function _ _ code =>
    obtain ⟨a, R, hwords, hvalid⟩ := code.layout
    refine ⟨⟨⟨r, f.chunk, 0, base⟩, c, f, W.context f captures,
      a ++ [(Instr.return_.encode, some R)]⟩, rfl, ?_, hvalid.entry⟩
    exact
      { type := ht
        closure := hclosure
        known := ⟨captures, hknown⟩
        function := hfunction
        chunk := rfl
        constants := rfl
        upvalues := hupvalues
        words := by rw [Layout.words_append, ← hwords]; rfl
        valid := hvalid }

end World

namespace Exec

variable {α : Type} {m : Machine} {Q : α → Machine → Prop} {W : World} {O : Outline}
  {S T : List Slot} {g : Option String} {act : List Activation} {r name : Handle} {v : Value}
  {count : UInt8} {chars : String}

/-- Calling a closure goes to its first instruction. -/
theorem does_callClosure (hm : m.Shows W ⟨T ++ List.replicate (count.toNat + 1) .value, g, act⟩)
    (hs : Suspended act T) (hr : W r = some .closure) :
    Does (callClosure r count m) fun _ m' => m'.Ready := by
  obtain ⟨c, captures, hc, hclosure, hknown, -⟩ := hm.fits.closure hr
  obtain ⟨f, hf, hfunction, -⟩ := hm.fits.prototype hknown
  refine does_bind_ok (readHeap_eq hc) (does_bind_ok (readHeap_eq hf) ?_)
  split
  · exact does_raise hm
  · next hcount =>
    have hcount : count = f.arity := not_not.mp hcount
    refine does_bind_ok (n := m) rfl ?_
    split
    · exact does_raise hm
    · refine (does_slotAt (T := List.replicate count.toNat .value) hm List.length_replicate).bind
        fun base m' h => ?_
      obtain ⟨rfl, rfl⟩ := h
      obtain ⟨a, ha, hruns, hlands⟩ := hm.fits.activation hr hclosure hfunction T.length
      have hframes : (m'.frames.push ⟨r, f.chunk, 0, T.length⟩).toList.reverse =
          (a :: act).map Activation.frame := by
        rw [Array.toList_push, List.reverse_concat, hm.frames, List.map_cons, ha]
      refine ⟨W, _, hm.forget.reframe hframes (List.forall_mem_cons.mpr ⟨hruns, hm.runs⟩), ?_⟩
      rw [hcount]
      refine .intro (A := .plain (entrySlots f.arity)) hs (by rw [ha]) ?_
      rw [ha]
      exact hlands

/-! ### Native functions -/

/-- The first argument is there. -/
theorem does_firstArgument {args : List Value} (hargs : ∀ v ∈ args, W.Holds v .any)
    (hne : args ≠ []) : Does (firstArgument args m) fun v m' => m' = m ∧ W.Holds v .any := by
  obtain ⟨v, rest, rfl⟩ := List.exists_cons_of_ne_nil hne
  exact ⟨rfl, hargs v List.mem_cons_self⟩

/-- A built-in function answers with a value that is known. -/
theorem does_runNative {n : Native} {args : List Value} (hm : m.Shows W O)
    (hargs : ∀ v ∈ args, W.Holds v .any) (hne : n.action = .clock ∨ args ≠ []) :
    Does (runNative n args m) fun v m' => ∃ V, m'.Shows V O ∧ V.Holds v .any := by
  rw [runNative]
  cases haction : n.action with
  | clock =>
    exact ⟨W, hm, World.holds_of_not_reference (Value.toHandle?_ofFloat _)⟩
  | str =>
    rw [haction] at hne
    refine (does_firstArgument hargs (hne.resolve_left (by simp))).bind fun v m' h => ?_
    obtain ⟨rfl, hv⟩ := h
    obtain ⟨text, htext⟩ := hm.fits.display hv
    refine does_bind_ok (readHeap_eq htext) ((does_intern text hm).bind fun r m' h => ?_)
    obtain ⟨V, hm', ht⟩ := h
    exact ⟨V, hm', World.holds_ofHandle ht⟩
  | len =>
    rw [haction] at hne
    refine (does_firstArgument hargs (hne.resolve_left (by simp))).bind fun v m' h => ?_
    obtain ⟨rfl, hv⟩ := h
    obtain ⟨s, hs⟩ := hm.fits.string? hv
    refine does_bind_ok (readHeap_eq hs) ?_
    cases s with
    | some s => exact ⟨W, hm, World.holds_of_not_reference (Value.toHandle?_ofFloat _)⟩
    | none =>
      obtain ⟨found, hfound⟩ := hm.fits.typeName hv
      exact does_bind_ok (readHeap_eq hfound) (does_raise hm)

/-- The arguments on the stack. -/
theorem arguments (hm : m.Shows W ⟨T ++ List.replicate (count.toNat + 1) .value, g, act⟩) :
    (∀ v ∈ (m.stack.extract (T.length + 1) m.stack.size).toList, W.Holds v .any) ∧
      (m.stack.extract (T.length + 1) m.stack.size).toList.length = count.toNat := by
  have hsize : m.stack.size = T.length + (count.toNat + 1) := by
    rw [hm.size_stack, List.length_append, List.length_replicate]
  refine ⟨fun v hv => ?_, ?_⟩
  · have hmem : v ∈ m.stack.toList := by
      rw [Array.toList_extract] at hv
      exact List.mem_of_mem_drop (List.mem_of_mem_take hv)
    obtain ⟨a, -, ha⟩ := exists_of_mem_left hm.stack hmem
    exact ha.any
  · rw [Array.length_toList, Array.size_extract, hsize]
    omega

/-- Calling a native function puts its answer in place of the callee and the arguments. -/
theorem does_callNative (hm : m.Shows W ⟨T ++ List.replicate (count.toNat + 1) .value, g, act⟩)
    (hs : Suspended act T) (hact : act ≠ []) (hr : W r = some .native) :
    Does (callNative r count m) fun _ m' => m'.Ready := by
  obtain ⟨n, hn, hargument⟩ := hm.fits.native hr
  refine does_bind_ok (readHeap_eq hn) ?_
  have hcall (hne : n.action = .clock ∨ count.toNat = 1) : Does ((do
      let callee ← slotAt count.toNat
      let args ← look fun m => (m.stack.extract (callee + 1) m.stack.size).toList
      let result ← runNative n args
      cutStack callee
      push result : Exec Unit) m) fun _ m' => m'.Ready := by
    refine (does_slotAt (T := List.replicate count.toNat .value) hm List.length_replicate).bind
      fun callee m' h => ?_
    obtain ⟨rfl, rfl⟩ := h
    obtain ⟨hargs, hlength⟩ := arguments hm
    refine does_bind_ok (n := m') rfl ((does_runNative hm hargs (hne.imp_right fun hone => ?_)).bind
      fun v m' h => ?_)
    · rw [← List.length_pos_iff, hlength, hone]
      exact Nat.one_pos
    · obtain ⟨V, hm', hv⟩ := h
      refine (does_cutStack hm' fun a ha => by rw [List.eq_of_mem_replicate ha]; rfl).bind
        fun _ m' hm' => ?_
      exact (does_push (x := .value) hm' hv).imp fun _ m' hm' => hm'.ready hs hact
  dsimp only
  cases harity : n.arity with
  | none => exact hcall (hargument.imp_right fun h => by rw [harity] at h; cases h)
  | some expected =>
    dsimp only
    split
    · exact does_raise hm
    · next hcount =>
      refine hcall (hargument.imp_right fun h => ?_)
      rw [harity, Option.some.injEq] at h
      rw [← not_not.mp hcount, h]
      rfl

/-! ### Methods -/

/-- A method that is found is a closure. -/
theorem does_findMethod (hm : m.Shows W O) (hr : W r = some .class_)
    (hname : W name = some (.text chars)) : Does (findMethod r name m) fun found m' =>
      m' = m ∧ ∀ v, found = some v → W.Holds v .closure := by
  obtain ⟨c, _, hc, -, -, hmethods⟩ := hm.fits.class_ hr
  refine does_bind_ok (readHeap_eq (hm.fits.key hname)) (does_bind_ok (readHeap_eq hc) ?_)
  exact ⟨rfl, fun v hv => hmethods.get? ⟨chars, hname, rfl⟩ hv⟩

/-- The value is there, so its type can be named. -/
theorem does_raiseNotAnInstance (hm : m.Shows W O) (hv : W.Holds v .any) :
    Does ((raiseNotAnInstance v : Exec α) m) Q := by
  obtain ⟨found, hfound⟩ := hm.fits.typeName hv
  exact does_bind_ok (readHeap_eq hfound) (does_raise hm)

/-- The name is there, so it can be named. -/
theorem does_raiseUndefinedProperty (hm : m.Shows W O) (hname : W name = some (.text chars)) :
    Does ((raiseUndefinedProperty name : Exec α) m) Q := by
  refine (does_textOf hm hname).bind fun s m' h => ?_
  obtain ⟨rfl, rfl⟩ := h
  exact does_raise hm

/-- Calling a class makes an instance, which its initializer answers if there is one. -/
theorem does_callClass (hm : m.Shows W ⟨T ++ List.replicate (count.toNat + 1) .value, g, act⟩)
    (hs : Suspended act T) (hact : act ≠ []) (hr : W r = some .class_) :
    Does (callClass r count m) fun _ m' => m'.Ready := by
  have hdescribes : W.Describes .instance_ (.instance_ ⟨r, Table.empty⟩) :=
    .instance_ hr World.tableOk_empty
  refine (does_alloc hm hdescribes (by simp) (by simp)).bind fun i m₁ h => ?_
  obtain ⟨V, hm₁, ht, hrefers⟩ := h
  refine (does_slotAt (T := List.replicate count.toNat .value) hm₁ List.length_replicate).bind
    fun callee m' h => ?_
  obtain ⟨rfl, rfl⟩ := h
  refine (does_writeSlot (x := .value) hm₁ getElem?_middle (World.holds_ofHandle ht)).bind
    fun _ m₂ hm₂ => does_bind_ok (n := m₂) rfl ?_
  refine (does_findMethod hm₂ (hrefers r _ (.inr .instanceClass) hr) hm₂.init).bind fun found m' h => ?_
  obtain ⟨rfl, hfound⟩ := h
  cases found with
  | some method =>
    refine (does_handleOf (hfound method rfl)).bind fun x m' h => ?_
    obtain ⟨rfl, -, hx⟩ := h
    exact does_callClosure hm₂ hs hx
  | none =>
    dsimp only
    split
    · exact does_raise hm₂
    · next hcount =>
      rw [not_not.mp hcount] at hm₂
      exact hm₂.ready hs hact

/-- Calling a value goes on in it or behind it. -/
theorem does_callValue (hm : m.Shows W ⟨T ++ List.replicate (count.toNat + 1) .value, g, act⟩)
    (hs : Suspended act T) (hact : act ≠ []) (hv : W.Holds v .any) :
    Does (callValue v count m) fun _ m' => m'.Ready := by
  have hraise : Does ((do
      let found ← readHeap (·.typeName v)
      raise (.notCallable found) : Exec Unit) m) fun _ m' => m'.Ready := by
    obtain ⟨found, hfound⟩ := hm.fits.typeName hv
    exact does_bind_ok (readHeap_eq hfound) (does_raise hm)
  rw [callValue]
  cases hat : v.toHandle? with
  | none => exact hraise
  | some r =>
    obtain ⟨t, ht⟩ := hv r hat
    obtain ⟨o, ho, -, hd⟩ := hm.fits.object ht
    refine does_bind_ok (readHeap_eq ho) ?_
    cases hd with
    | closure => exact does_callClosure hm hs ht
    | native => exact does_callNative hm hs hact ht
    | class_ => exact does_callClass hm hs hact ht
    | boundMethod receiver method =>
      refine (does_slotAt (T := List.replicate count.toNat .value) hm List.length_replicate).bind
        fun slot m' h => ?_
      obtain ⟨rfl, rfl⟩ := h
      exact (does_writeSlot (x := .value) hm getElem?_middle receiver).bind fun _ m₁ hm₁ =>
        does_callClosure hm₁ hs method
    | text | function | openUpvalue | closedUpvalue | instance_ => exact hraise

/-- Calling a method of a class goes to its first instruction. -/
theorem does_invokeFromClass (hm : m.Shows W ⟨T ++ List.replicate (count.toNat + 1) .value, g, act⟩)
    (hs : Suspended act T) (hr : W r = some .class_) (hname : W name = some (.text chars)) :
    Does (invokeFromClass r name count m) fun _ m' => m'.Ready := by
  refine (does_findMethod hm hr hname).bind fun found m' h => ?_
  obtain ⟨rfl, hfound⟩ := h
  cases found with
  | none => exact does_raiseUndefinedProperty hm hname
  | some method =>
    refine (does_handleOf (hfound method rfl)).bind fun x m' h => ?_
    obtain ⟨rfl, -, hx⟩ := h
    exact does_callClosure hm hs hx

/-- Calling a property of the receiver goes on in it or behind it. -/
theorem does_invoke (hm : m.Shows W ⟨T ++ List.replicate (count.toNat + 1) .value, g, act⟩)
    (hs : Suspended act T) (hact : act ≠ []) (hname : W name = some (.text chars)) :
    Does (invoke name count m) fun _ m' => m'.Ready := by
  refine (does_peek (T := List.replicate count.toNat .value) hm List.length_replicate).bind
    fun receiver m' h => ?_
  obtain ⟨rfl, -, hv⟩ := h
  rcases hm.fits.instance? hv with hnone | ⟨r, i, hi, -, -, hclass, hfields⟩
  · exact does_bind_ok (readHeap_eq hnone) (does_raiseNotAnInstance hm hv)
  · refine does_bind_ok (readHeap_eq hi) (does_bind_ok (readHeap_eq (hm.fits.key hname)) ?_)
    cases hget : i.fields.get? ⟨name, Text.hash chars⟩ with
    | none => exact does_invokeFromClass hm hs hclass hname
    | some field =>
      have hfield : W.Holds field .any := hfields.get? ⟨chars, hname, rfl⟩ hget
      refine (does_slotAt (T := List.replicate count.toNat .value) hm List.length_replicate).bind
        fun slot m' h => ?_
      obtain ⟨rfl, rfl⟩ := h
      exact (does_writeSlot (x := .value) hm getElem?_middle hfield).bind fun _ m₁ hm₁ =>
        does_callValue hm₁ hs hact hfield

/-- Binding a method puts the bound method in place of the receiver. -/
theorem does_bindMethod (hm : m.Shows W ⟨S ++ [.value], g, act⟩) (hr : W r = some .class_)
    (hname : W name = some (.text chars)) : Does (bindMethod r name m) fun _ m' =>
      ∃ V, m'.Shows V ⟨S ++ [.value], g, act⟩ := by
  refine (does_findMethod hm hr hname).bind fun found m' h => ?_
  obtain ⟨rfl, hfound⟩ := h
  cases found with
  | none => exact does_raiseUndefinedProperty hm hname
  | some method =>
    refine (does_peek_top hm).bind fun receiver m' h => ?_
    obtain ⟨rfl, hv⟩ := h
    refine (does_handleOf (hfound method rfl)).bind fun x m' h => ?_
    obtain ⟨rfl, -, hx⟩ := h
    refine (does_alloc hm (.boundMethod hv hx) (by simp) (by simp)).bind fun b m₁ h => ?_
    obtain ⟨V, hm₁, ht, -⟩ := h
    refine (does_drop hm₁ rfl).bind fun _ m₂ hm₂ => ?_
    exact (does_push (x := .value) hm₂ (World.holds_ofHandle ht)).imp fun _ m' hm' => ⟨V, hm'⟩

end Exec

end ScriptMachine
