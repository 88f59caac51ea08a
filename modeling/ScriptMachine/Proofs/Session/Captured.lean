import ScriptMachine.Proofs.Session.Account
import ScriptMachine.Proofs.Session.Safety

/-!
# Closing captured variables

Before slots go, at the end of a block, at a return and when an error is reported, their upvalues are
closed and nothing else changes: what is read through an upvalue is the same before and after. No
operation on the heap opens a closed upvalue.
-/

namespace ScriptMachine

/-- The instruction that a machine is at. -/
def Machine.next? (m : Machine) : Option Instr :=
  m.frames.back?.bind fun f => f.chunk.code[f.ip]?.bind Instr.decode?

namespace Exec

variable {α : Type} {m m' : Machine}

/-! ### Instructions that close -/

/-- Finding the innermost frame changes nothing. -/
theorem frame_eq_ok {f : Frame} (hdone : frame m = .ok f m') : m' = m ∧ m.frames.back? = some f := by
  unfold frame at hdone
  split at hdone
  · next f' hf =>
    obtain ⟨rfl, rfl⟩ := EStateM.Result.ok.inj hdone
    exact ⟨rfl, hf⟩
  · cases hdone

/-- Noting the next instruction moves nothing. -/
theorem unmoved_noteInstruction (hdone : noteInstruction m = .ok () m') : m.Unmoved m' := by
  obtain ⟨keeps, m₁, hlook, hrest⟩ := exists_of_bind_ok hdone
  obtain ⟨-, rfl⟩ := EStateM.Result.ok.inj hlook
  split at hrest
  · obtain ⟨f, m₂, hframe, htext⟩ := exists_of_bind_ok hrest
    obtain ⟨rfl, -⟩ := frame_eq_ok hframe
    obtain ⟨text, m₃, hlook, hnote⟩ := exists_of_bind_ok htext
    obtain ⟨-, rfl⟩ := EStateM.Result.ok.inj hlook
    cases text with
    | ok text =>
      obtain ⟨-, rfl⟩ := EStateM.Result.ok.inj hnote
      exact ⟨rfl, (Heap.alike_note _ _ _).object?⟩
    | error e => cases hnote
  · obtain ⟨-, rfl⟩ := EStateM.Result.ok.inj hrest
    exact ⟨rfl, fun _ => rfl⟩

/-- Reading a word of code moves nothing. -/
theorem unmoved_fetch {w : UInt32} (hdone : fetch m = .ok w m') : m.Unmoved m' := by
  obtain ⟨f, m₁, hframe, hrest⟩ := exists_of_bind_ok hdone
  obtain ⟨rfl, -⟩ := frame_eq_ok hframe
  cases hword : f.chunk.code[f.ip]? with
  | none =>
    rw [hword] at hrest
    cases hrest
  | some word =>
    rw [hword] at hrest
    obtain ⟨_, m₂, hset, hrest⟩ := exists_of_bind_ok hrest
    obtain ⟨-, rfl⟩ := EStateM.Result.ok.inj hset
    obtain ⟨-, rfl⟩ := EStateM.Result.ok.inj hrest
    exact ⟨rfl, fun _ => rfl⟩

/-- What is known of a success is known beside what it does. -/
theorem Does.and {x : Exec α} {Q R : α → Machine → Prop} (hx : Does (x m) Q)
    (hr : ∀ a m', x m = .ok a m' → R a m') : Does (x m) fun a m' => Q a m' ∧ R a m' := by
  cases heq : x m with
  | ok a m' =>
    rw [heq] at hx
    exact ⟨hx, hr a m' heq⟩
  | error halt m' =>
    rw [heq] at hx
    cases halt <;> exact hx

/-- The slot that an instruction closes upvalues from, if it closes any. -/
def closingFrom? (m : Machine) : Instr → Option Nat
  | .closeUpvalue => some (m.stack.size - 1)
  | .return_ => m.frames.back?.map Frame.base
  | _ => none

/-- An instruction that closes upvalues closes them without a trace. -/
theorem does_step_closing {i : Instr} {boundary : Nat} (hm : m.Ready) (hi : m.next? = some i)
    (hb : closingFrom? m i = some boundary) :
    Does (step m) fun _ m' => Machine.ClosedFrom boundary m m' := by
  obtain ⟨W, O, hm, hp⟩ := hm
  cases hp with
  | @intro a rest below A outer base lands =>
    have hr := hm.runs a List.mem_cons_self
    have hback : m.frames.back? = some a.frame := hm.back_frames rfl
    obtain ⟨i', E, hword, hfits, hstep⟩ := exists_step hr lands
    obtain rfl : i' = i := by
      have hcode : a.frame.chunk.code[a.frame.ip]? = some i'.encode := by
        rw [hr.chunk, ← Array.getElem?_toList, ← hr.words, hword]
      rw [Machine.next?, hback, Option.bind_some, hcode, Option.bind_some, Instr.decode?_encode,
        Option.some.injEq] at hi
      exact hi
    refine ((does_noteInstruction hm lands).and fun _ _ => unmoved_noteInstruction).bind
      fun _ m₁ h => ?_
    obtain ⟨hm₁, hmoved₁⟩ := h
    refine ((does_fetch hm₁ hword).and fun _ _ => unmoved_fetch).bind fun w m₂ h => ?_
    obtain ⟨⟨rfl, hm₂⟩, hmoved₂⟩ := h
    have hmoved := hmoved₁.trans hmoved₂
    have hm₂ := hm₂.weaken (SlotsFit.append (.refl below) hfits.slots)
    rw [Instr.decode?_encode]
    cases i' with
    | return_ =>
      obtain rfl : a.frame.base = boundary := by
        rw [closingFrom?, hback, Option.map_some, Option.some.injEq] at hb
        exact hb
      cases hstep with
      | effect effect => cases effect with
        | plain plain => cases plain
      | return_ =>
        rw [base]
        exact (does_return hm₂ outer base).imp fun _ _ h => h.2.after hmoved
    | closeUpvalue =>
      have hclose {S : List Slot} {x : Slot} (hslots : below ++ E.slots = S ++ [x]) :
          Does (perform .closeUpvalue m₂) fun _ m' => Machine.ClosedFrom boundary m m' := by
        rw [hslots] at hm₂
        have hsize : m.stack.size - 1 = S.length := by
          rw [← hmoved.stack, hm₂.size_stack, List.length_append, List.length_singleton]
          omega
        obtain rfl : S.length = boundary := hsize.symm.trans (Option.some.inj hb)
        exact (does_closeUpvalue hm₂).imp fun _ _ h => h.2.after hmoved
      cases hstep with
      | effect effect => cases effect with
        | plain plain => cases plain
        | closeUpvalue below =>
          exact (hclose (List.append_assoc _ _ _).symm).bind fun _ _ h => h
    | _ => cases hb

/-- Reporting an error closes every upvalue without a trace. -/
theorem exists_failure_closing {W : World} {O : Outline} (e : RuntimeError) (hm : m.Shows W O) :
    ∃ f m', failure e m = .ok f m' ∧ Machine.ClosedFrom 0 m m' := by
  obtain ⟨f, m', heq, -, -, hcloses, -⟩ := failure_eq e hm
  have hsplit : m.heap.Split 0 m.openUpvalues m.openUpvalues [] := by
    refine ⟨(List.append_nil _).symm, fun r hr => ?_, fun r hr => absurd hr List.not_mem_nil⟩
    obtain ⟨js, hstands, -⟩ := hm.lists.ordered
    obtain ⟨j, -, hj⟩ := exists_of_mem_left hstands hr
    exact ⟨j, hj, Nat.zero_le j⟩
  exact ⟨f, m', heq, Machine.closedFrom hm.lists hsplit hcloses fun j hj =>
    absurd hj (Nat.not_lt_zero j)⟩

/-- Closing from a boundary on leaves no other trace. -/
theorem exists_closeUpvalues_closing {W : World} {O : Outline} (boundary : Nat)
    (hm : m.Shows W O) :
    ∃ m', closeUpvalues boundary m = .ok () m' ∧ Machine.ClosedFrom boundary m m' := by
  obtain ⟨h', upper, lower, heq, -, hsplit, hcloses⟩ := closeUpvalues_eq boundary hm
  exact ⟨_, heq, Machine.closedFrom hm.lists hsplit hcloses fun _ _ => rfl⟩

end Exec

/-! ### Closed upvalues -/

namespace Memory

/-- In one operation a closed upvalue stays closed, or it is freed. -/
theorem Operation.closed_stays {s s' : Memory} {charge : Nat} {r : Handle} {v : Value}
    (hop : Operation s charge s') (ha : s.heap.Arena)
    (hr : s.heap.object? r = some (.upvalue (.closed v))) :
    (∃ v', s'.heap.object? r = some (.upvalue (.closed v'))) ∨ s'.heap.object? r = none := by
  -- where an object that is no upvalue is replaced, this one is not
  have hreplaced {h : Heap} {x : Handle} {o o' : Object}
      (hr : h.object? r = some (.upvalue (.closed v))) (ho : h.object? x = some o)
      (hno : o.kind ≠ .upvalue) : (h.replace x o').object? r = some (.upvalue (.closed v)) := by
    rw [Heap.object?_replace o' ho, if_neg ?_, hr]
    rintro rfl
    rw [hr, Option.some.injEq] at ho
    exact hno (ho ▸ rfl)
  cases hop with
  | @insert h h' g o x hdone =>
    rcases Heap.Arena.insert ha o with ⟨x', h'', hok, hins⟩ | herr
    · obtain ⟨-, rfl⟩ := Prod.mk.inj (Except.ok.inj (hok.symm.trans hdone))
      refine .inl ⟨v, ?_⟩
      rw [hins.object?, if_neg ?_, hr]
      rintro rfl
      cases hins.vacant.symm.trans hr
    · cases herr.symm.trans hdone
  | @collect h g roots =>
    rcases Heap.object?_collect_eq h roots r with ⟨-, hkept⟩ | ⟨-, hfreed⟩
    · exact .inl ⟨v, hkept.trans hr⟩
    · exact .inr hfreed
  | setField _ hdone =>
    obtain ⟨i, hi, -, rfl⟩ := Heap.exists_of_setField hdone
    exact .inl ⟨v, hreplaced hr hi (by simp [Object.kind])⟩
  | setMethod _ hdone =>
    obtain ⟨c, hc, rfl⟩ := Heap.exists_of_setMethod hdone
    exact .inl ⟨v, hreplaced hr hc (by simp [Object.kind])⟩
  | inherit _ _ hdone =>
    obtain ⟨s, c, -, hc, rfl⟩ := Heap.exists_of_inherit hdone
    exact .inl ⟨v, hreplaced hr hc (by simp [Object.kind])⟩
  | @setUpvalue h h' g x v' hdone =>
    obtain ⟨old, hold, rfl⟩ := Heap.exists_of_setUpvalue hdone
    rw [Heap.object?_replace _ hold]
    split
    · exact .inl ⟨v', rfl⟩
    · exact .inl ⟨v, hr⟩
  | addString | setGlobal | eraseGlobal | keepEvents => exact .inl ⟨v, hr⟩

end Memory

end ScriptMachine
