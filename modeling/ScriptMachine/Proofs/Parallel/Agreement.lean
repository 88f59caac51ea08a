import ScriptMachine.Proofs.Parallel.Machines

/-!
# Actions that agree

Two actions of corresponding machines agree if they come to the same end in corresponding machines,
or if one of them faults: that neither does is shown elsewhere. What they answer with is related
under the pairing they end with. The rules here follow an action step by step on both sides.

The steps that change a machine are followed so too: the stack, the place in the code, the globals
and the printed text change alike, objects that are updated are paired before and after, and an
allocation pairs the new objects whatever it collects on either side.
-/

namespace ScriptMachine.Exec

open Pairing

variable {α β γ δ : Type} {p q : Pairing} {m n m' n' : Machine} {v w : Value} {x y : Handle}

/-- Two results are alike: corresponding successes with `Q`, the same error of the script in
corresponding machines, or a fault on either side. -/
inductive Agree (p : Pairing) (Q : Pairing → α → β → Machine → Machine → Prop) :
    EStateM.Result Halt Machine α → EStateM.Result Halt Machine β → Prop
  | ok {q : Pairing} {a : α} {b : β} {m n : Machine} (terms : q.terms = p.terms)
    (machines : q.Machines m n) (answers : Q q a b m n) : Agree p Q (.ok a m) (.ok b n)
  | error {q : Pairing} {e : RuntimeError} {m n : Machine} (terms : q.terms = p.terms)
    (machines : q.Machines m n) : Agree p Q (.error (.error e) m) (.error (.error e) n)
  | faultLeft {f : Fault} {m : Machine} {r : EStateM.Result Halt Machine β} :
    Agree p Q (.error (.fault f) m) r
  | faultRight {f : Fault} {n : Machine} {r : EStateM.Result Halt Machine α} :
    Agree p Q r (.error (.fault f) n)

/-- Nothing is said of the answers. -/
def Any (_ : Pairing) (_ : α) (_ : β) (_ _ : Machine) : Prop := True

/-- The machines correspond as before. -/
def Still (p q : Pairing) (_ : α) (_ : β) (_ _ : Machine) : Prop := q = p

section Rules

variable {Q R : Pairing → α → β → Machine → Machine → Prop} {T : Pairing → γ → δ → Machine → Machine → Prop}
  {k : α → Exec γ} {k' : β → Exec δ}

/-- Only the terms are kept of the pairing at the start. -/
theorem Agree.of_terms {r : EStateM.Result Halt Machine α} {r' : EStateM.Result Halt Machine β}
    (h : Agree q Q r r') (ht : q.terms = p.terms) : Agree p Q r r' := by
  cases h with
  | ok terms machines answers => exact .ok (terms.trans ht) machines answers
  | error terms machines => exact .error (terms.trans ht) machines
  | faultLeft => exact .faultLeft
  | faultRight => exact .faultRight

/-- Less may be said of successes. -/
theorem Agree.imp {r : EStateM.Result Halt Machine α} {r' : EStateM.Result Halt Machine β}
    (h : Agree p Q r r') (himp : ∀ q a b m n, Q q a b m n → R q a b m n) : Agree p R r r' := by
  cases h with
  | ok terms machines answers => exact .ok terms machines (himp _ _ _ _ _ answers)
  | error terms machines => exact .error terms machines
  | faultLeft => exact .faultLeft
  | faultRight => exact .faultRight

/-- What comes after a fault does not matter. -/
theorem agree_bind_fault_left {a : Exec α} {f : Fault} {r : EStateM.Result Halt Machine δ}
    (ha : a m = .error (.fault f) m') : Agree p T ((a >>= k) m) r := by
  show Agree p T (EStateM.bind a k m) r
  rw [EStateM.bind, ha]
  exact .faultLeft

/-- A fault on the right side is agreed with, whatever would have followed. -/
theorem agree_bind_fault_right {b : Exec β} {f : Fault} {r : EStateM.Result Halt Machine γ}
    (hb : b n = .error (.fault f) n') : Agree p T r ((b >>= k') n) := by
  show Agree p T r (EStateM.bind b k' n)
  rw [EStateM.bind, hb]
  exact .faultRight

/-- One step after another. -/
theorem Agree.bind {a : Exec α} {b : Exec β} (h : Agree p R (a m) (b n))
    (hk : ∀ q c d m' n', q.terms = p.terms → q.Machines m' n' → R q c d m' n' →
      Agree q T (k c m') (k' d n')) : Agree p T ((a >>= k) m) ((b >>= k') n) := by
  generalize hx : a m = r at h
  generalize hy : b n = r' at h
  cases h with
  | ok terms machines answers =>
    rw [bind_eq hx, bind_eq hy]
    exact (hk _ _ _ _ _ terms machines answers).of_terms terms
  | error terms machines =>
    show Agree p T (EStateM.bind a k m) (EStateM.bind b k' n)
    rw [EStateM.bind, EStateM.bind, hx, hy]
    exact .error terms machines
  | faultLeft => exact agree_bind_fault_left hx
  | faultRight => exact agree_bind_fault_right hy

/-- One step after another that keeps the pairing. -/
theorem Agree.andThen {a : Exec α} {b : Exec β} (h : Agree p (Still p) (a m) (b n))
    (hk : ∀ c d m' n', p.Machines m' n' → Agree p T (k c m') (k' d n')) :
    Agree p T ((a >>= k) m) ((b >>= k') n) :=
  h.bind fun q c d m' n' _ hm' hq => by
    obtain rfl : q = p := hq
    exact hk c d m' n' hm'

/-- Nothing needs to be said of successes. -/
theorem Agree.any {r : EStateM.Result Halt Machine α} {r' : EStateM.Result Halt Machine β}
    (h : Agree p Q r r') : Agree p Any r r' := h.imp fun _ _ _ _ _ _ => trivial

/-- Related answers agree. -/
theorem agree_pure {a : α} {b : β} (hm : p.Machines m n) (hq : Q p a b m n) :
    Agree p Q ((pure a : Exec α) m) ((pure b : Exec β) n) := .ok rfl hm hq

/-- The same error agrees. -/
theorem agree_raise {e : RuntimeError} (hm : p.Machines m n) :
    Agree p Q ((raise e : Exec α) m) ((raise e : Exec β) n) := .error rfl hm

/-- What comes after an error does not matter. -/
theorem agree_raise_bind {e : RuntimeError} (hm : p.Machines m n) :
    Agree p T (((raise e : Exec α) >>= k) m) (((raise e : Exec β) >>= k') n) := .error rfl hm

end Rules

/-! ### Reading -/

section Reading

variable {T : Pairing → γ → δ → Machine → Machine → Prop}

/-- Reading the heap answers or faults, and leaves the machine. -/
theorem readHeap_cases (f : Heap → Except Fault α) (m : Machine) :
    (∃ a, f m.heap = .ok a ∧ readHeap f m = .ok a m) ∨
      ∃ e, readHeap f m = .error (.fault e) m := by
  rw [readHeap]
  cases f m.heap with
  | ok a => exact .inl ⟨a, rfl, rfl⟩
  | error e => exact .inr ⟨e, rfl⟩

/-- Reading corresponding heaps finds what is related. -/
theorem agree_readHeap {R : α → β → Prop} {f : Heap → Except Fault α} {g : Heap → Except Fault β}
    {k : α → Exec γ} {k' : β → Exec δ} (h : FindAlike R (f m.heap) (g n.heap))
    (hk : ∀ a b, f m.heap = .ok a → g n.heap = .ok b → R a b → Agree p T (k a m) (k' b n)) :
    Agree p T ((readHeap f >>= k) m) ((readHeap g >>= k') n) := by
  rcases readHeap_cases f m with ⟨a, ha, hx⟩ | ⟨e, hx⟩
  · rcases readHeap_cases g n with ⟨b, hb, hy⟩ | ⟨e, hy⟩
    · rw [bind_eq hx, bind_eq hy]
      exact hk a b ha hb (h a b ha hb)
    · exact agree_bind_fault_right hy
  · exact agree_bind_fault_left hx

/-- Reading an entry that both machines have, or neither. -/
theorem agree_option {R : α → β → Prop} {a : Exec α} {b : Exec β} {c : Option α} {d : Option β}
    {k : α → Exec γ} {k' : β → Exec δ} (hcd : Option.Rel R c d)
    (hnone : c = none → ∃ f, a m = .error (.fault f) m) (ha : ∀ c', c = some c' → a m = .ok c' m)
    (hb : ∀ d', d = some d' → b n = .ok d' n)
    (hk : ∀ c' d', c = some c' → d = some d' → R c' d' → Agree p T (k c' m) (k' d' n)) :
    Agree p T ((a >>= k) m) ((b >>= k') n) := by
  cases hcd with
  | none =>
    obtain ⟨f, hf⟩ := hnone rfl
    exact agree_bind_fault_left hf
  | some hcd =>
    rw [bind_eq (ha _ rfl), bind_eq (hb _ rfl)]
    exact hk _ _ rfl rfl hcd

/-- Reading what is related on the machines. -/
theorem agree_look_related {R : α → β → Prop} {f : Machine → α} {g : Machine → β} {k : α → Exec γ}
    {k' : β → Exec δ} (h : R (f m) (g n)) (hk : ∀ a b, R a b → Agree p T (k a m) (k' b n)) :
    Agree p T ((look f >>= k) m) ((look g >>= k') n) := hk _ _ h

/-- Reading what the machines have alike. -/
theorem agree_look {f : Machine → α} {k : α → Exec γ} {k' : α → Exec δ} (h : f m = f n)
    (hk : ∀ a, Agree p T (k a m) (k' a n)) :
    Agree p T ((look f >>= k) m) ((look f >>= k') n) :=
  agree_look_related (R := (· = ·)) h fun a _ hab => hab ▸ hk a

/-- Reading goes on at once. -/
theorem look_bind (f : Machine → α) (k : α → Exec β) (m : Machine) :
    (look f >>= k) m = k (f m) m := rfl

variable {k : Value → Exec γ} {k' : Value → Exec δ}

/-- The values looked at from the top are paired where the stacks are compared. -/
theorem agree_peek {distance : Nat} (hm : p.Machines m n)
    (habove : p.terms.Above (m.stack.size - (distance + 1)))
    (hk : ∀ v w, p.Values v w → Agree p T (k v m) (k' w n)) :
    Agree p T ((peek distance >>= k) m) ((peek distance >>= k') n) := by
  have hsize := hm.stack.size
  by_cases hlt : distance < m.stack.size
  · refine agree_option (hm.stack (m.stack.size - 1 - distance)) (fun hc => ⟨.stackUnderflow, ?_⟩)
      (fun v hv => ?_) (fun w hw => ?_) fun v w _ _ hvw => hk v w (hvw.above (habove.mono (by omega)))
    · rw [peek, if_pos hlt, hc]
    · rw [peek, if_pos hlt, hv]
    · rw [peek, ← hsize, if_pos hlt, hw]
  · exact agree_bind_fault_left (by rw [peek, if_neg hlt])

/-- Stacks of one height have the same slots. -/
theorem agree_slotAt {distance : Nat} {k : Nat → Exec γ} {k' : Nat → Exec δ}
    (hm : p.Machines m n)
    (hk : ∀ i, i = m.stack.size - (distance + 1) → Agree p T (k i m) (k' i n)) :
    Agree p T ((slotAt distance >>= k) m) ((slotAt distance >>= k') n) := by
  have hsize := hm.stack.size
  by_cases hlt : distance < m.stack.size
  · have hx : slotAt distance m = .ok (m.stack.size - 1 - distance) m := by rw [slotAt, if_pos hlt]
    have hy : slotAt distance n = .ok (m.stack.size - 1 - distance) n := by
      rw [slotAt, ← hsize, if_pos hlt]
    rw [bind_eq hx, bind_eq hy]
    exact hk _ (by omega)
  · exact agree_bind_fault_left (by rw [slotAt, if_neg hlt])

/-- The values in a slot that is compared are paired. -/
theorem agree_readSlot {slot : Nat} (hm : p.Machines m n) (habove : p.terms.Above slot)
    (hk : ∀ v w, p.Values v w → Agree p T (k v m) (k' w n)) :
    Agree p T ((readSlot slot >>= k) m) ((readSlot slot >>= k') n) :=
  agree_option (hm.stack slot) (fun hc => ⟨.stackBounds slot, by rw [readSlot, hc]⟩)
    (fun v hv => by rw [readSlot, hv]) (fun w hw => by rw [readSlot, hw])
    fun v w _ _ hvw => hk v w (hvw.above habove)

/-- The innermost frames are paired. -/
theorem agree_frame {k : Frame → Exec γ} {k' : Frame → Exec δ} (hm : p.Machines m n)
    (hk : ∀ f g, m.frames.back? = some f → n.frames.back? = some g →
      p.Frames (m.frames.size - 1) f g → Agree p T (k f m) (k' g n)) :
    Agree p T ((frame >>= k) m) ((frame >>= k') n) :=
  agree_option hm.frames.back? (fun hc => ⟨.noFrame, by rw [frame, hc]⟩)
    (fun f hf => by rw [frame, hf]) (fun g hg => by rw [frame, hg]) hk

/-- Corresponding constants of the running closures, whose objects they keep alive. -/
theorem agree_constant {c d : UInt16} (hm : p.Machines m n) (hcd : p.Constants m n c d)
    (hk : ∀ v w, p.Values v w → (∀ x, v.toHandle? = some x → m.Keeps x) →
      (∀ y, w.toHandle? = some y → n.Keeps y) →
      (∃ f, m.frames.back? = some f ∧ f.chunk.constants[c.toNat]? = some v) →
      Agree p T (k v m) (k' w n)) :
    Agree p T ((constant c >>= k) m) ((constant d >>= k') n) := by
  rw [constant, constant, bind_assoc, bind_assoc]
  refine agree_frame hm fun f g hf hg _ => ?_
  have hrel := hcd f g hf hg
  cases hv : f.chunk.constants[c.toNat]? with
  | none => exact agree_bind_fault_left rfl
  | some v =>
    cases hw : g.chunk.constants[d.toNat]? with
    | none => exact agree_bind_fault_right rfl
    | some w =>
      rw [hv, hw] at hrel
      have hfm := Array.mem_of_back? hf
      have hgn := Array.mem_of_back? hg
      cases hrel with
      | some hvw =>
        exact hk v w hvw
          (fun x hx => Machine.keeps_constant hfm (hm.runs f hfm) (Array.mem_of_getElem? hv) hx)
          (fun y hy => Machine.keeps_constant hgn (hm.runs' g hgn) (Array.mem_of_getElem? hw) hy)
          ⟨f, hf, hv⟩

/-- Paired values are objects on both sides or on none. -/
theorem agree_handleOf {k : Handle → Exec γ} {k' : Handle → Exec δ} (hvw : p.Values v w)
    (hk : ∀ x y, v.toHandle? = some x → w.toHandle? = some y → p.Pairs x y →
      Agree p T (k x m) (k' y n)) :
    Agree p T ((handleOf v >>= k) m) ((handleOf w >>= k') n) :=
  agree_option hvw.toHandle? (fun hc => ⟨.notReference v, by rw [handleOf, hc]; rfl⟩)
    (fun x hx => by rw [handleOf, hx]; rfl) (fun y hy => by rw [handleOf, hy]; rfl) hk

/-- The constants that name something are paired, and kept alive by their frames. -/
theorem agree_constantHandle {c d : UInt16} {k : Handle → Exec γ} {k' : Handle → Exec δ}
    (hm : p.Machines m n) (hcd : p.Constants m n c d)
    (hk : ∀ x y, p.Pairs x y → m.Keeps x → n.Keeps y →
      (∃ f, m.frames.back? = some f ∧
        (f.chunk.constants[c.toNat]?).bind Value.toHandle? = some x) →
      Agree p T (k x m) (k' y n)) :
    Agree p T ((constantHandle c >>= k) m) ((constantHandle d >>= k') n) := by
  rw [constantHandle, constantHandle, bind_assoc, bind_assoc]
  refine agree_constant hm hcd fun v w hvw hkept hkept' hfound => ?_
  obtain ⟨f, hf, hv⟩ := hfound
  exact agree_handleOf hvw fun x y hx hy hxy =>
    hk x y hxy (hkept x hx) (hkept' y hy) ⟨f, hf, by rw [hv]; exact hx⟩

/-- Paired strings have the same text. -/
theorem agree_textOf {k : String → Exec γ} {k' : String → Exec δ} (hm : p.Machines m n)
    (hxy : p.Pairs x y) (hk : ∀ s, Agree p T (k s m) (k' s n)) :
    Agree p T ((textOf x >>= k) m) ((textOf y >>= k') n) := by
  rw [textOf, textOf, bind_assoc, bind_assoc]
  exact agree_readHeap (hm.heaps.string hxy) fun s t _ _ hst => hst ▸ hk s.chars

end Reading

variable {T : Pairing → γ → δ → Machine → Machine → Prop}

/-! ### The stack -/

/-- Paired values are pushed. -/
theorem agree_push (hm : p.Machines m n) (hvw : p.Values v w) :
    Agree p (Still p) (push v m) (push w n) :=
  .ok rfl { hm with stack := hm.stack.push (.values hvw) } rfl

/-- After a value is taken off both stacks. -/
theorem agree_pop {k : Value → Exec γ} {k' : Value → Exec δ} (hm : p.Machines m n)
    (habove : p.terms.Above (m.stack.size - 1))
    (hk : ∀ v w n', p.Values v w → p.Machines { m with stack := m.stack.pop } n' →
      Agree p T (k v { m with stack := m.stack.pop }) (k' w n')) :
    Agree p T ((pop >>= k) m) ((pop >>= k') n) := by
  have hback := hm.stack.back?
  cases hv : m.stack.back? with
  | none => exact agree_bind_fault_left (f := .stackUnderflow) (by rw [pop, hv])
  | some v =>
    cases hw : n.stack.back? with
    | none => exact agree_bind_fault_right (f := .stackUnderflow) (by rw [pop, hw])
    | some w =>
      rw [hv, hw] at hback
      cases hback with
      | some hvw =>
        rw [bind_eq (b := v) (by rw [pop, hv]), bind_eq (b := w) (by rw [pop, hw])]
        exact hk v w _ (hvw.above habove) { hm with stack := hm.stack.pop }

/-- What is dropped need not be compared. -/
theorem agree_drop {k : Unit → Exec γ} {k' : Unit → Exec δ} (hm : p.Machines m n)
    (hk : ∀ m' n', p.Machines m' n' → Agree p T (k () m') (k' () n')) :
    Agree p T ((drop >>= k) m) ((drop >>= k') n) := by
  have hback := hm.stack.back?
  rw [drop, bind_assoc, bind_assoc]
  cases hv : m.stack.back? with
  | none => exact agree_bind_fault_left (f := .stackUnderflow) (by rw [pop, hv])
  | some v =>
    cases hw : n.stack.back? with
    | none => exact agree_bind_fault_right (f := .stackUnderflow) (by rw [pop, hw])
    | some w =>
      rw [bind_eq (b := v) (by rw [pop, hv]), bind_eq (b := w) (by rw [pop, hw])]
      exact hk _ _ { hm with stack := hm.stack.pop }

/-- The last values are dropped. -/
theorem agree_drop_last (hm : p.Machines m n) : Agree p (Still p) (drop m) (drop n) := by
  rw [← bind_pure (drop : Exec Unit)]
  exact agree_drop hm fun _ _ hm' => agree_pure hm' rfl

/-- The machines correspond as before, and the stack is as high. -/
def Level (p : Pairing) (m : Machine) (q : Pairing) (_ : α) (_ : β) (m' _ : Machine) : Prop :=
  q = p ∧ m'.stack.size = m.stack.size

/-- A step that leaves the stack as high, and another one. -/
theorem Agree.afterLevel {a : Exec α} {b : Exec β} {k : α → Exec γ} {k' : β → Exec δ}
    (h : Agree p (Level p m) (a m) (b n))
    (hk : ∀ c d m' n', p.Machines m' n' → m'.stack.size = m.stack.size →
      Agree p T (k c m') (k' d n')) : Agree p T ((a >>= k) m) ((b >>= k') n) :=
  h.bind fun _ c d m' n' _ hm' h => by
    obtain ⟨rfl, hsize⟩ := h
    exact hk c d m' n' hm' hsize

/-- Paired values are written to the same slot. -/
theorem agree_writeSlot {slot : Nat} (hm : p.Machines m n) (hvw : p.Values v w) :
    Agree p (Level p m) (writeSlot slot v m) (writeSlot slot w n) := by
  rw [writeSlot, writeSlot, hm.stack.size]
  split
  · exact .ok rfl { hm with stack := hm.stack.set slot (.values hvw) }
      ⟨rfl, Array.size_setIfInBounds⟩
  · exact .faultLeft

/-- The stacks are cut to the same height. -/
theorem agree_cutStack {size : Nat} (hm : p.Machines m n) :
    Agree p (Still p) (cutStack size m) (cutStack size n) :=
  .ok rfl { hm with stack := hm.stack.shrink size } rfl

/-! ### The place in the code -/

/-- The next word of the frame `f` is read. -/
structure Fetched (m : Machine) (f : Frame) (word : UInt32) (m' : Machine) : Prop where
  back : m.frames.back? = some f
  word : f.chunk.code[f.ip]? = some word
  next : m' = { m with
    frames := m.frames.modify (m.frames.size - 1) ({ · with ip := f.ip + 1 }) }

namespace Fetched

variable {f : Frame} {word : UInt32}

/-- Fetching leaves the heap. -/
theorem heap (h : Fetched m f word m') : m'.heap = m.heap := by rw [h.next]

/-- Fetching leaves the stack. -/
theorem stack (h : Fetched m f word m') : m'.stack = m.stack := by rw [h.next]

/-- Fetching leaves the count of frames. -/
theorem size (h : Fetched m f word m') : m'.frames.size = m.frames.size := by
  rw [h.next, Array.size_modify]

/-- Fetching moves the innermost frame by a word. -/
theorem back? (h : Fetched m f word m') : m'.frames.back? = some { f with ip := f.ip + 1 } := by
  have hback := h.back
  rw [Array.back?_eq_getElem?] at hback
  rw [Array.back?_eq_getElem?, h.size, h.next, Array.getElem?_modify, if_pos rfl, hback]
  rfl

/-- Going to another place of the code keeps the same alive. -/
theorem keeps (h : Fetched m f word m') (hx : m.Keeps x) : m'.Keeps x := by
  rw [h.next]
  refine hx.mono fun r hr => ?_
  rw [Machine.mem_roots] at hr ⊢
  refine hr.imp_right fun hr => hr.imp_left ?_
  rintro ⟨g, hg, rfl⟩
  obtain ⟨j, hj⟩ := Array.mem_iff_getElem?.mp hg
  have hget : (m.frames.modify (m.frames.size - 1) ({ · with ip := f.ip + 1 }))[j]? =
      some (if m.frames.size - 1 = j then { g with ip := f.ip + 1 } else g) := by
    rw [Array.getElem?_modify, hj]
    split <;> rfl
  exact ⟨_, Array.mem_of_getElem? hget, by split <;> rfl⟩

end Fetched

/-- After the next words are read on both sides. -/
theorem agree_fetch {k : UInt32 → Exec γ} {k' : UInt32 → Exec δ} (hm : p.Machines m n)
    (hk : ∀ f g word word' m' n', Fetched m f word m' → Fetched n g word' n' →
      p.Frames (m.frames.size - 1) f g → p.Machines m' n' → Agree p T (k word m') (k' word' n')) :
    Agree p T ((fetch >>= k) m) ((fetch >>= k') n) := by
  rw [fetch, bind_assoc, bind_assoc]
  refine agree_frame hm fun f g hf hg hfg => ?_
  cases hword : f.chunk.code[f.ip]? with
  | none => exact agree_bind_fault_left rfl
  | some word =>
    cases hword' : g.chunk.code[g.ip]? with
    | none => exact agree_bind_fault_right rfl
    | some word' =>
      exact hk f g word word' _ _ ⟨hf, hword, rfl⟩ ⟨hg, hword', rfl⟩ hfg
        (hm.goTo hf hg (by omega))

/-- Both sides jump forward by the same distance. -/
theorem agree_skip {distance : Nat} (hm : p.Machines m n) :
    Agree p (Still p) (skip distance m) (skip distance n) :=
  agree_frame hm fun _ _ hf hg _ => .ok rfl (hm.goTo hf hg (by omega)) rfl

/-- Both sides jump backward by the same distance. -/
theorem agree_goBack {distance : Nat} (hm : p.Machines m n) :
    Agree p (Still p) (goBack distance m) (goBack distance n) := by
  refine agree_frame hm fun f g hf hg _ => ?_
  by_cases hf' : f.ip < distance
  · rw [if_pos hf']
    exact agree_bind_fault_left rfl
  · by_cases hg' : g.ip < distance
    · rw [if_pos hg']
      exact agree_bind_fault_right rfl
    · rw [if_neg hf', if_neg hg']
      exact .ok rfl (hm.goTo hf hg (by omega)) rfl

/-! ### Globals and the printed text -/

/-- A global variable is set alike, and was there on both sides or on none. -/
theorem agree_setGlobal {k l : Key} (hm : p.Machines m n) (hk : p.Keys k l) (hvw : p.Values v w) :
    Agree p (fun q b b' _ _ => q = p ∧ b = b') (setGlobal k v m) (setGlobal l w n) := by
  obtain ⟨hnew, htable⟩ := hm.globals.insert hk hvw
  have halike (h : Heap) (i j : Nat) : h.Alike (h.chargeGrowth i j) := ⟨rfl, rfl, rfl, rfl, rfl⟩
  exact .ok rfl { hm.alike (halike _ _ _) (halike _ _ _) with globals := htable } ⟨rfl, hnew⟩

/-- A global variable is removed alike. -/
theorem agree_eraseGlobal {k l : Key} (hm : p.Machines m n) (hk : p.Keys k l) :
    Agree p (Still p) (eraseGlobal k m) (eraseGlobal l n) :=
  .ok rfl { hm with globals := hm.globals.erase hk } rfl

/-- The same line is given to the same writer. -/
theorem agree_printLine (line : String) (hm : p.Machines m n) :
    Agree p (Still p) (printLine line m) (printLine line n) := by
  rw [printLine, printLine]
  dsimp only
  rw [hm.sink]
  split
  · exact .ok rfl { hm with sink := rfl } rfl
  · exact .error rfl { hm with sink := rfl }

/-! ### Type names in errors -/

/-- Reading corresponding lists value by value. -/
theorem findAlike_mapM {f : Value → Except Fault α} {g : Value → Except Fault β} {R : α → β → Prop}
    {vs ws : List Value} (hvw : List.Forall₂ p.Values vs ws)
    (hf : ∀ v w, p.Values v w → FindAlike R (f v) (g w)) :
    FindAlike (List.Forall₂ R) (vs.mapM f) (ws.mapM g) := by
  rw [← List.mapM'_eq_mapM, ← List.mapM'_eq_mapM]
  induction hvw with
  | nil => exact findAlike_ok .nil
  | cons hvw _ ih =>
    exact (hf _ _ hvw).bind fun _ _ hab => ih.bind fun _ _ has => findAlike_ok (.cons hab has)

/-- Errors over paired operands name the same types. -/
theorem agree_raiseMismatch {operator : Symbol} {rule : OperandRule} {vs ws : List Value}
    (hm : p.Machines m n) (hvw : List.Forall₂ p.Values vs ws) :
    Agree p T ((raiseMismatch operator rule vs : Exec γ) m) ((raiseMismatch operator rule ws : Exec δ) n) :=
  agree_readHeap (findAlike_mapM hvw fun _ _ => hm.heaps.typeName) fun a b _ _ hab => by
    rw [List.forall₂_eq_eq_eq] at hab
    exact hab ▸ agree_raise hm

/-! ### Updates of objects -/

/-- A change of the heap answers or faults. -/
theorem changeHeap_cases (f : Heap → Except Fault (α × Heap)) (m : Machine) :
    (∃ a h, f m.heap = .ok (a, h) ∧ changeHeap f m = .ok a { m with heap := h }) ∨
      ∃ e m', changeHeap f m = .error (.fault e) m' := by
  cases hf : f m.heap with
  | ok found =>
    obtain ⟨a, h⟩ := found
    exact .inl ⟨a, h, rfl, changeHeap_eq hf⟩
  | error e =>
    refine .inr ⟨e, { m with heap := Heap.absent }, ?_⟩
    rw [changeHeap]
    simp only [hf]

/-- Both heaps are changed so that the machines correspond afterwards. -/
theorem agree_changeHeap {f : Heap → Except Fault (α × Heap)} {g : Heap → Except Fault (β × Heap)}
    (h : ∀ a b h₁ h₁', f m.heap = .ok (a, h₁) → g n.heap = .ok (b, h₁') →
      p.Machines { m with heap := h₁ } { n with heap := h₁' }) :
    Agree p (Still p) (changeHeap f m) (changeHeap g n) := by
  rcases changeHeap_cases f m with ⟨a, h₁, ha, hx⟩ | ⟨e, m', hx⟩
  · rcases changeHeap_cases g n with ⟨b, h₁', hb, hy⟩ | ⟨e, n', hy⟩
    · rw [hx, hy]
      exact .ok rfl (h a b h₁ h₁' ha hb) rfl
    · rw [hy]
      exact .faultRight
  · rw [hx]
    exact .faultLeft

/-- An update that answers nothing, and succeeds, is the change it makes. -/
theorem change_eq_ok {x : Except Fault Heap} {h : Heap}
    (hdone : (do let heap ← x; return ((), heap)) = (.ok ((), h) : Except Fault (Unit × Heap))) :
    x = .ok h := by
  obtain ⟨h', hx, hrest⟩ := exists_of_bind_eq_ok hdone
  rw [hx, (Prod.mk.inj (Except.ok.inj hrest)).2]

/-- What growth is charged with is no difference between heaps. -/
theorem alike_chargeGrowth (h : Heap) (i j : Nat) : h.Alike (h.chargeGrowth i j) :=
  ⟨rfl, rfl, rfl, rfl, rfl⟩

/-- The same field of paired instances is set. -/
theorem agree_setField {k l : Key} (hm : p.Machines m n) (hxy : p.Pairs x y) (hk : p.Keys k l)
    (hvw : p.Values v w) :
    Agree p (Still p) (changeHeap (·.setField x k v) m) (changeHeap (·.setField y l w) n) := by
  refine agree_changeHeap fun a b h₁ h₁' ha hb => ?_
  obtain ⟨i, hi, -, rfl⟩ := Heap.exists_of_setField ha
  obtain ⟨j, hj, -, rfl⟩ := Heap.exists_of_setField hb
  have hij := hm.heaps.corresponds hxy hi hj
  cases hij with
  | instance_ class_ fields =>
    have hnew : p.Objects (.instance_ { i with fields := (i.fields.insert k v).2 })
        (.instance_ { j with fields := (j.fields.insert l w).2 }) :=
      .instance_ class_ (fields.insert hk hvw).2
    exact (hm.replace hxy hi hj hnew nofun nofun nofun nofun nofun).alike (alike_chargeGrowth _ _ _) (alike_chargeGrowth _ _ _)

/-- The same method of paired classes is set. -/
theorem agree_setMethod {k l : Key} (hm : p.Machines m n) (hxy : p.Pairs x y) (hk : p.Keys k l)
    (hvw : p.Values v w) :
    Agree p (Still p) (changeHeap (fun heap => do return ((), ← heap.setMethod x k v)) m)
      (changeHeap (fun heap => do return ((), ← heap.setMethod y l w)) n) := by
  refine agree_changeHeap fun _ _ h₁ h₁' ha hb => ?_
  obtain ⟨c, hc, rfl⟩ := Heap.exists_of_setMethod (change_eq_ok ha)
  obtain ⟨d, hd, rfl⟩ := Heap.exists_of_setMethod (change_eq_ok hb)
  have hcd := hm.heaps.corresponds hxy hc hd
  cases hcd with
  | class_ name methods =>
    have hnew : p.Objects (.class_ { c with methods := (c.methods.insert k v).2 })
        (.class_ { d with methods := (d.methods.insert l w).2 }) :=
      .class_ name (methods.insert hk hvw).2
    exact (hm.replace hxy hc hd hnew nofun nofun nofun nofun nofun).alike (alike_chargeGrowth _ _ _) (alike_chargeGrowth _ _ _)

/-- Paired classes inherit from paired ones. -/
theorem agree_inheritMethods {x' y' : Handle} (hm : p.Machines m n) (hxy : p.Pairs x y)
    (hsuper : p.Pairs x' y') :
    Agree p (Still p) (changeHeap (fun heap => do return ((), ← heap.inherit x x')) m)
      (changeHeap (fun heap => do return ((), ← heap.inherit y y')) n) := by
  refine agree_changeHeap fun _ _ h₁ h₁' ha hb => ?_
  obtain ⟨s, c, hs, hc, rfl⟩ := Heap.exists_of_inherit (change_eq_ok ha)
  obtain ⟨t, d, ht, hd, rfl⟩ := Heap.exists_of_inherit (change_eq_ok hb)
  have hst := hm.heaps.corresponds hsuper hs ht
  have hcd := hm.heaps.corresponds hxy hc hd
  cases hcd with
  | class_ name methods =>
    cases hst with
    | class_ _ inherited =>
      have hnew : p.Objects (.class_ { c with methods := c.methods.insertAll s.methods })
          (.class_ { d with methods := d.methods.insertAll t.methods }) :=
        .class_ name (methods.insertAll inherited)
      exact (hm.replace hxy hc hd hnew nofun nofun nofun nofun nofun).alike (alike_chargeGrowth _ _ _) (alike_chargeGrowth _ _ _)

/-- Paired upvalues are closed with paired values. -/
theorem agree_setUpvalue (hm : p.Machines m n) (hxy : p.Pairs x y) (hvw : p.Values v w) :
    Agree p (Still p) (changeHeap (fun heap => do return ((), ← heap.setUpvalue x (.closed v))) m)
      (changeHeap (fun heap => do return ((), ← heap.setUpvalue y (.closed w))) n) := by
  refine agree_changeHeap fun _ _ h₁ h₁' ha hb => ?_
  obtain ⟨a, hx, rfl⟩ := Heap.exists_of_setUpvalue (change_eq_ok ha)
  obtain ⟨b, hy, rfl⟩ := Heap.exists_of_setUpvalue (change_eq_ok hb)
  exact hm.replace hxy hx hy (.closed hvw) nofun nofun nofun nofun nofun

/-! ### Allocation -/

/-- Only the heap changed, and what was kept alive is unchanged. -/
def Grows (m m' : Machine) : Prop :=
  ∃ h, m' = { m with heap := h } ∧ ∀ x, m.Keeps x → h.object? x = m.heap.object? x

namespace Grows

/-- What was kept alive is kept alive. -/
theorem keeps (h : Grows m m') (hx : m.Keeps x) : m'.Keeps x := by
  obtain ⟨h, rfl, hkept⟩ := h
  have hsame : h.Reachable m.roots x ↔ m.heap.Reachable m.roots x := Heap.reachable_congr hkept
  exact hsame.mpr hx

/-- The stack is the same. -/
theorem stack (h : Grows m m') : m'.stack = m.stack := by
  obtain ⟨_, rfl, -⟩ := h
  rfl

/-- The frames are the same. -/
theorem frames (h : Grows m m') : m'.frames = m.frames := by
  obtain ⟨_, rfl, -⟩ := h
  rfl

end Grows

/-- The handles `r` and `r'` of new objects are paired beside what the machines and `more` and
`more'` keep alive. -/
structure Grown (p : Pairing) (m n : Machine) (more more' : List Handle) (q : Pairing)
    (r r' : Handle) (m' n' : Machine) : Prop where
  pair : q.Pairs r r'
  pairs : ∀ x y, p.Pairs x y → m.heap.Reachable (m.roots ++ more) x →
    n.heap.Reachable (n.roots ++ more') y → q.Pairs x y
  left : Grows m m'
  right : Grows n n'

/-- What the machines keep alive stays paired. -/
theorem Grown.held {more more' : List Handle} {r r' : Handle}
    (hg : Grown p m n more more' q r r' m' n') (hxy : p.Pairs x y) (hx : m.Keeps x)
    (hy : n.Keeps y) : q.Pairs x y :=
  hg.pairs x y hxy (hx.mono fun _ => List.mem_append_left _)
    (hy.mono fun _ => List.mem_append_left _)

/-- A fault of an allocation is one of the machine. -/
theorem changeHeapRooted_fault {f : Heap → (Unit → List Handle) → Except Fault (α × Heap)}
    {e : Fault} (hf : f m.heap (fun _ => m.roots) = .error e) :
    changeHeapRooted f m = .error (.fault e) { m with heap := Heap.absent } := by
  have hsame : f m.heap (fun _ => { m with heap := Heap.absent }.roots) = .error e := hf
  rw [changeHeapRooted]
  simp only [hsame]

/-- Allocating corresponding objects pairs them. -/
theorem agree_alloc {o o' : Object} (hm : p.Machines m n) (ho : p.Objects o o')
    (hno : ∀ s, o ≠ .string s) (hnof : ∀ f, o ≠ .function f) :
    Agree p (Grown p m n o.references o'.references) (alloc o m) (alloc o' n) := by
  have hno' (s : Interned) : o' ≠ .string s := by
    rintro rfl
    cases ho
    exact hno _ rfl
  rcases hm.heaps.left.alloc o hno (hm.covers_beside ho) with ⟨r, h, heq, ha, hs⟩ | heq
  · rcases hm.heaps.right.alloc o' hno' (hm.symm.covers_beside ho.symm) with
      ⟨r', h', heq', ha', hs'⟩ | heq'
    · obtain ⟨q, hq, hpair, hkept⟩ := hm.heaps.alloc ha ha' hs hs' ho fun f hf => absurd hf (hnof f)
      have hleft (x : Handle) (hx : m.Keeps x) : h.object? x = m.heap.object? x :=
        ha.kept x (hx.mono fun _ => List.mem_append_left _)
      have hright (y : Handle) (hy : n.Keeps y) : h'.object? y = n.heap.object? y :=
        ha'.kept y (hy.mono fun _ => List.mem_append_left _)
      rw [alloc, alloc, changeHeapRooted_eq heq, changeHeapRooted_eq heq']
      exact .ok hkept.terms (hm.carry hq hkept.terms (fun x y hxy hx hy => hkept.pairs x y hxy
        (hx.mono fun _ => List.mem_append_left _) (hy.mono fun _ => List.mem_append_left _))
        hleft hright) ⟨hpair, hkept.pairs, ⟨h, rfl, hleft⟩, ⟨h', rfl, hright⟩⟩
    · have hfull : alloc o' n = _ := changeHeapRooted_fault heq'
      rw [hfull]
      exact .faultRight
  · have hfull : alloc o m = _ := changeHeapRooted_fault heq
    rw [hfull]
    exact .faultLeft

/-- Interning one content pairs its texts. -/
theorem agree_intern {chars : String} (hm : p.Machines m n) :
    Agree p (Grown p m n [] []) (intern chars m) (intern chars n) := by
  rcases hm.heaps.left.intern chars hm.covers with ⟨r, h, heq, hi⟩ | heq
  · rcases hm.heaps.right.intern chars hm.symm.covers with ⟨r', h', heq', hi'⟩ | heq'
    · obtain ⟨q, hq, hpair, hkept⟩ := hm.heaps.intern hi hi'
      rw [intern, changeHeapRooted_eq heq, changeHeapRooted_eq heq']
      refine .ok hkept.terms (hm.carry hq hkept.terms hkept.pairs hi.kept hi'.kept)
        ⟨hpair, fun x y hxy hx hy => ?_, ⟨h, rfl, hi.kept⟩, ⟨h', rfl, hi'.kept⟩⟩
      rw [List.append_nil] at hx hy
      exact hkept.pairs x y hxy hx hy
    · have hfull : intern chars n = _ := changeHeapRooted_fault heq'
      rw [hfull]
      exact .faultRight
  · have hfull : intern chars m = _ := changeHeapRooted_fault heq
    rw [hfull]
    exact .faultLeft

end ScriptMachine.Exec
