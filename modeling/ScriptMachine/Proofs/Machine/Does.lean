import ScriptMachine.Proofs.Heap.Reading
import ScriptMachine.Proofs.Heap.Updates
import ScriptMachine.Proofs.Machine.Outline

/-!
# What a step of the machine does

`Does` says of the result of a step that it is a success of which something holds, or an error of
the script in a machine of which something is known, or an exhausted arena; no other fault. Here
are the rules for steps in sequence and for each single access of the machine to its state: what it
needs the machine to show, and what the machine shows afterwards.
-/

namespace ScriptMachine

namespace World

variable {W V : World} {h h' : Heap} {roots fewer : List Handle}

/-- Less is carried over too. -/
theorem Carries.mono (hc : W.Carries h roots V h') (hsub : ∀ r ∈ fewer, r ∈ roots) :
    W.Carries h fewer V h' :=
  ⟨hc.fits, fun x t hx => hc.types x t (hx.mono hsub), fun x hx => hc.objects x (hx.mono hsub)⟩

/-- An alike heap has everything. -/
theorem Fits.carries (hw : W.Fits h) (ha : h.Alike h') : W.Carries h roots W h' :=
  ⟨hw.congr ha.slots, fun _ _ _ => id, fun x _ => ha.object? x⟩

end World

namespace Machine

variable {W : World} {m : Machine} {O : Outline} {h' : Heap}

/-- The account, the pacing and the journal of the heap do not matter. -/
theorem Shows.alike (hm : m.Shows W O) (ha : m.heap.Alike h') : { m with heap := h' }.Shows W O :=
  hm.carry (hm.fits.carries ha) (hm.sound.congr ha) fun x _ hj =>
    (ha.object? x).symm.trans hj

/-- What a machine shows stays so when an instance or a class is replaced by another one that is
known as the same. -/
theorem Shows.replace {r : Handle} {t : ObjectType} {o : Object} (hm : m.Shows W O) (o' : Object)
    (ho : m.heap.object? r = some o) (ht : W r = some t) (hd : W.Describes t o')
    (hkind : t = .instance_ ∨ t = .class_) :
    { m with heap := m.heap.replace r o' }.Shows W O := by
  obtain ⟨htyped, hobject⟩ := hm.toTyped.replace ho ht hd (by rcases hkind with rfl | rfl <;> simp)
    (by rcases hkind with rfl | rfl <;> simp) (by rcases hkind with rfl | rfl <;> simp)
    m.openUpvalues
  have hno {o : Object} (hd : W.Describes t o) (j : Nat) : o ≠ .upvalue (.onStack j) := by
    rintro rfl
    rcases hkind with rfl | rfl <;> cases hd
  refine ⟨htyped, hm.lists.congr fun x j => ?_⟩
  rw [Heap.StandsFor, Heap.StandsFor, hobject]
  split
  · next hx =>
    obtain ⟨o'', ho'', hd''⟩ := hm.fits r t ht
    rw [hx, ho'', Option.some.injEq, Option.some.injEq]
    exact ⟨fun h => absurd h (hno hd j), fun h => absurd h (hno hd'' j)⟩
  · rfl

end Machine

namespace Exec

variable {α β : Type} {m : Machine} {Q : α → Machine → Prop} {W : World} {O : Outline}
  {S T : List Slot} {g : Option String} {act rest : List Activation} {a : Activation} {x : Slot}
  {v : Value} {r : Handle}

/-- What a result of the machine has to be: a success with `Q`, an error of the script in a machine
that shows something, or an exhausted arena. -/
def Does (result : EStateM.Result Halt Machine α) (Q : α → Machine → Prop) : Prop :=
  match result with
  | .ok a m => Q a m
  | .error (.error _) m => ∃ W O, m.Shows W O
  | .error (.fault f) _ => f = .arenaFull

/-! ### Rules -/

/-- Less may be said of a success. -/
theorem Does.imp {result : EStateM.Result Halt Machine α} {R : α → Machine → Prop}
    (h : Does result Q) (himp : ∀ a m, Q a m → R a m) : Does result R := by
  match result, h with
  | .ok a m, h => exact himp a m h
  | .error (.error _) m, h => exact h
  | .error (.fault f) m, h => exact h

/-- One step after another. -/
theorem Does.bind {x : Exec α} {f : α → Exec β} {R : β → Machine → Prop} (hx : Does (x m) Q)
    (hf : ∀ a m', Q a m' → Does (f a m') R) : Does ((x >>= f) m) R := by
  show Does (EStateM.bind x f m) R
  unfold EStateM.bind
  match hr : x m with
  | .ok a m' =>
    rw [hr] at hx
    exact hf a m' hx
  | .error (.error _) m' =>
    rw [hr] at hx
    exact hx
  | .error (.fault f) m' =>
    rw [hr] at hx
    exact hx

/-- After a step that is known to succeed comes the next one. -/
theorem bind_eq {x : Exec α} {f : α → Exec β} {b : α} {n : Machine} (hx : x m = .ok b n) :
    (x >>= f) m = f b n := by
  show EStateM.bind x f m = f b n
  rw [EStateM.bind, hx]

/-- A step that is known to succeed, and then another. -/
theorem does_bind_ok {x : Exec α} {f : α → Exec β} {R : β → Machine → Prop} {b : α} {n : Machine}
    (hx : x m = .ok b n) (hf : Does (f b n) R) : Does ((x >>= f) m) R := by
  rw [bind_eq hx]
  exact hf

/-- An error of the script may stop a machine that shows something. -/
theorem does_raise {e : RuntimeError} (hm : m.Shows W O) : Does ((raise e : Exec α) m) Q :=
  ⟨W, O, hm⟩

/-- Reading the heap succeeds where the access does. -/
theorem readHeap_eq {f : Heap → Except Fault α} {b : α} (hf : f m.heap = .ok b) :
    readHeap f m = .ok b m := by
  rw [readHeap, hf]

/-- Changing the heap succeeds where the change does. -/
theorem changeHeap_eq {f : Heap → Except Fault (α × Heap)} {b : α} {h' : Heap}
    (hf : f m.heap = .ok (b, h')) : changeHeap f m = .ok b { m with heap := h' } := by
  rw [changeHeap]
  simp only [hf]

/-- Changing the heap with roots succeeds where the change does. -/
theorem changeHeapRooted_eq {f : Heap → (Unit → List Handle) → Except Fault (α × Heap)} {b : α}
    {h' : Heap} (hf : f m.heap (fun _ => m.roots) = .ok (b, h')) :
    changeHeapRooted f m = .ok b { m with heap := h' } := by
  have hsame : f m.heap (fun _ => { m with heap := Heap.absent }.roots) = .ok (b, h') := hf
  rw [changeHeapRooted]
  simp only [hsame]

/-- Changing the heap with roots stops where the change does. -/
theorem does_changeHeapRooted_full {f : Heap → (Unit → List Handle) → Except Fault (α × Heap)}
    (hf : f m.heap (fun _ => m.roots) = .error .arenaFull) : Does (changeHeapRooted f m) Q := by
  have hsame : f m.heap (fun _ => { m with heap := Heap.absent }.roots) = .error .arenaFull := hf
  rw [changeHeapRooted]
  simp only [hsame]
  exact rfl

/-! ### The stack -/

/-- A value that is as its slot says is pushed. -/
theorem does_push (hm : m.Shows W ⟨S, g, act⟩) (hv : W.Holds v x.content) :
    Does (push v m) fun _ m' => m'.Shows W ⟨S ++ [x], g, act⟩ := by
  have hstack : List.Forall₂ (fun v a => W.Holds v a.content) (m.stack.push v).toList (S ++ [x]) := by
    rw [Array.toList_push]
    exact List.rel_append hm.stack (.cons hv .nil)
  exact hm.restack hstack (.append S [x])

/-- The values of a stack, split where its slots are. -/
theorem forall₂_append_right {γ δ : Type} {R : γ → δ → Prop} {xs : List γ} {ys zs : List δ}
    (h : List.Forall₂ R xs (ys ++ zs)) :
    ∃ us vs, xs = us ++ vs ∧ List.Forall₂ R us ys ∧ List.Forall₂ R vs zs :=
  ⟨_, _, (List.take_append_drop ys.length xs).symm, List.forall₂_take_append _ _ _ h,
    List.forall₂_drop_append _ _ _ h⟩

/-- The values of a stack, the one on top split off. -/
theorem forall₂_concat_right {γ δ : Type} {R : γ → δ → Prop} {xs : List γ} {ys : List δ} {y : δ}
    (h : List.Forall₂ R xs (ys ++ [y])) : ∃ zs z, xs = zs ++ [z] ∧ List.Forall₂ R zs ys ∧ R z y := by
  obtain ⟨zs, ws, rfl, hzs, hws⟩ := forall₂_append_right h
  cases hws with
  | cons hz hnil =>
    cases hnil
    exact ⟨zs, _, rfl, hzs, hz⟩

/-- The value on top of the stack, and the stack without it. -/
theorem exists_pop (hm : m.Typed W ⟨S ++ [x], g, act⟩) :
    ∃ v, pop m = .ok v { m with stack := m.stack.pop } ∧ W.Holds v x.content ∧
      List.Forall₂ (fun v a => W.Holds v a.content) m.stack.pop.toList S := by
  obtain ⟨vs, v, hvs, hrest, hv⟩ := forall₂_concat_right hm.stack
  have hback : m.stack.back? = some v := by
    rw [← Array.getLast?_toList, hvs, List.getLast?_concat]
  refine ⟨v, ?_, hv, ?_⟩
  · rw [pop]
    simp only [hback]
  · rw [Array.toList_pop, hvs, List.dropLast_concat]
    exact hrest

/-- The last value is taken, and is as its slot said. -/
theorem does_pop (hm : m.Shows W ⟨S ++ [x], g, act⟩) (hfree : x.captured = false) :
    Does (pop m) fun v m' => m'.Shows W ⟨S, g, act⟩ ∧ W.Holds v x.content := by
  obtain ⟨v, hpop, hv, hrest⟩ := exists_pop hm.toTyped
  rw [hpop]
  refine ⟨hm.restack hrest (.of_append fun a ha => ?_), hv⟩
  rw [List.mem_singleton.mp ha]
  exact hfree

/-- The last value is dropped, if it is not captured. -/
theorem does_drop (hm : m.Shows W ⟨S ++ [x], g, act⟩) (hfree : x.captured = false) :
    Does (drop m) fun _ m' => m'.Shows W ⟨S, g, act⟩ :=
  (does_pop hm hfree).bind fun _ _ hm' => hm'.1

/-- The value in a slot of the stack. -/
theorem exists_value {j : Nat} (hm : m.Typed W O) (hj : O.slots[j]? = some x) :
    ∃ v, m.stack[j]? = some v ∧ W.Holds v x.content := by
  obtain ⟨hlt, rfl⟩ := List.getElem?_eq_some_iff.mp hj
  have hlt' : j < m.stack.toList.length := hm.stack.length_eq ▸ hlt
  refine ⟨m.stack[j], Array.getElem?_eq_getElem hlt', ?_⟩
  exact (List.forall₂_iff_get.mp hm.stack).2 j hlt' hlt

/-- A slot is read, and its value is as the slot says. -/
theorem does_readSlot {j : Nat} (hm : m.Shows W O) (hj : O.slots[j]? = some x) :
    Does (readSlot j m) fun v m' => m' = m ∧ W.Holds v x.content := by
  obtain ⟨v, hget, hv⟩ := exists_value hm.toTyped hj
  rw [readSlot]
  simp only [hget]
  exact ⟨rfl, hv⟩

/-- A slot in the midst of others. -/
theorem getElem?_middle : (S ++ x :: T)[S.length]? = some x := by simp

/-- A value is looked at from the top, and is as its slot says. -/
theorem does_peek {n : Nat} (hm : m.Shows W ⟨S ++ x :: T, g, act⟩) (hn : T.length = n) :
    Does (peek n m) fun v m' => m' = m ∧ m.stack[S.length]? = some v ∧ W.Holds v x.content := by
  have hsize : m.stack.size = S.length + n + 1 := by
    rw [hm.size_stack, List.length_append, List.length_cons, hn]
    omega
  obtain ⟨v, hget, hv⟩ := exists_value hm.toTyped (getElem?_middle (S := S))
  have hat : m.stack[m.stack.size - 1 - n]? = some v := by
    rw [hsize, show S.length + n + 1 - 1 - n = S.length by omega, hget]
  rw [peek, if_pos (by omega)]
  simp only [hat]
  exact ⟨rfl, hget, hv⟩

/-- The last value is looked at, and is as its slot says. -/
theorem does_peek_top (hm : m.Shows W ⟨S ++ [x], g, act⟩) :
    Does (peek 0 m) fun v m' => m' = m ∧ W.Holds v x.content :=
  (does_peek hm rfl).imp fun _ _ h => ⟨h.1, h.2.2⟩

/-- A slot is counted from the top. -/
theorem does_slotAt {n : Nat} (hm : m.Shows W ⟨S ++ x :: T, g, act⟩) (hn : T.length = n) :
    Does (slotAt n m) fun j m' => m' = m ∧ j = S.length := by
  have hsize : m.stack.size = S.length + n + 1 := by
    rw [hm.size_stack, List.length_append, List.length_cons, hn]
    omega
  rw [slotAt, if_pos (by omega)]
  exact ⟨rfl, by omega⟩

/-- A slot is written with what it may hold. -/
theorem does_writeSlot {j : Nat} (hm : m.Shows W O) (hj : O.slots[j]? = some x)
    (hv : W.Holds v x.content) : Does (writeSlot j v m) fun _ m' => m'.Shows W O := by
  obtain ⟨hlt, rfl⟩ := List.getElem?_eq_some_iff.mp hj
  rw [writeSlot, if_pos (by rwa [hm.size_stack])]
  refine hm.restack (T := O.slots) ?_ (.refl _)
  rw [Array.toList_setIfInBounds]
  refine List.forall₂_iff_get.mpr ⟨by rw [List.length_set, hm.stack.length_eq], fun i hi hi' => ?_⟩
  rw [List.get_eq_getElem, List.get_eq_getElem, List.getElem_set]
  split
  · next heq =>
    subst heq
    exact hv
  · rw [List.length_set] at hi
    exact (List.forall₂_iff_get.mp hm.stack).2 i hi hi'

/-- Cutting the stack drops slots that no upvalue stands for. -/
theorem does_cutStack (hm : m.Shows W ⟨S ++ T, g, act⟩) (hfree : ∀ a ∈ T, a.captured = false) :
    Does (cutStack S.length m) fun _ m' => m'.Shows W ⟨S, g, act⟩ := by
  refine hm.restack (T := S) ?_ (.of_append hfree)
  rw [Array.toList_shrink]
  exact List.forall₂_take_append _ _ _ hm.stack

/-! ### The running function -/

/-- The innermost of some frames changed. -/
theorem reverse_modify_last {γ : Type} {xs : Array γ} {y : γ} {ys : List γ} (f : γ → γ)
    (h : xs.toList.reverse = y :: ys) :
    (xs.modify (xs.size - 1) f).toList.reverse = f y :: ys := by
  have hxs : xs.toList = ys.reverse ++ [y] := by
    rw [← List.reverse_reverse xs.toList, h, List.reverse_cons]
  have hlast : xs.size - 1 = ys.reverse.length := by
    rw [← Array.length_toList, hxs]
    simp
  rw [Array.toList_modify, hxs, hlast, List.modify_eq_set_getElem?]
  simp

/-- The running frame is that of the innermost activation. -/
theorem does_frame (hm : m.Typed W ⟨S, g, a :: rest⟩) :
    Does (frame m) fun f m' => m' = m ∧ f = a.frame := by
  rw [frame]
  simp only [hm.back_frames rfl]
  exact ⟨rfl, rfl⟩

/-- `m'` has the heap of `m` and keeps the same objects alive. -/
structure Alike (m m' : Machine) : Prop where
  heap : m'.heap = m.heap
  openUpvalues : m'.openUpvalues = m.openUpvalues
  roots : m'.roots = m.roots

/-- Going to another offset changes the innermost frame alone. -/
theorem does_setIp_typed (n : Nat) (hm : m.Typed W ⟨S, g, a :: rest⟩) :
    Does (setIp n m) fun _ m' => m'.Typed W ⟨S, g, a.goTo n :: rest⟩ ∧ Alike m m' := by
  have hframes := reverse_modify_last (fun f => { f with ip := n }) hm.frames
  refine ⟨{ hm with frames := hframes, runs := fun b hb => ?_ }, rfl, rfl, ?_⟩
  · rcases List.mem_cons.mp hb with rfl | hb
    · exact (hm.runs a List.mem_cons_self).goTo n
    · exact hm.runs b (List.mem_cons_of_mem _ hb)
  · have hclosures : (m.frames.modify (m.frames.size - 1) fun f => { f with ip := n }).toList.map
        Frame.closure = m.frames.toList.map Frame.closure := by
      refine List.reverse_injective ?_
      rw [← List.map_reverse, ← List.map_reverse, hframes, hm.frames]
      rfl
    simp only [Machine.roots, hclosures]

/-- The innermost activation goes on elsewhere. -/
theorem does_setIp (n : Nat) (hm : m.Shows W ⟨S, g, a :: rest⟩) :
    Does (setIp n m) fun _ m' => m'.Shows W ⟨S, g, a.goTo n :: rest⟩ :=
  (does_setIp_typed n hm.toTyped).imp fun _ _ h =>
    ⟨h.1, by rw [h.2.heap, h.2.openUpvalues]; exact hm.lists⟩

/-- The words of the running function are those of its layout. -/
theorem does_fetch_typed {w : UInt32} (hm : m.Typed W ⟨S, g, a :: rest⟩)
    (hw : a.layout.words[a.frame.ip]? = some w) : Does (fetch m) fun word m' =>
      word = w ∧ m'.Typed W ⟨S, g, a.goTo (a.frame.ip + 1) :: rest⟩ ∧ Alike m m' := by
  have hr := hm.runs a List.mem_cons_self
  have hget : a.frame.chunk.code[a.frame.ip]? = some w := by
    rw [hr.chunk, ← Array.getElem?_toList, ← hr.words, hw]
  refine (does_frame hm).bind fun f m' h => ?_
  obtain ⟨rfl, rfl⟩ := h
  simp only [hget]
  exact (does_setIp_typed _ hm).bind fun _ _ hm' => ⟨rfl, hm'⟩

/-- The next word is read, and the activation goes on behind it. -/
theorem does_fetch {w : UInt32} (hm : m.Shows W ⟨S, g, a :: rest⟩)
    (hw : a.layout.words[a.frame.ip]? = some w) : Does (fetch m) fun word m' =>
      word = w ∧ m'.Shows W ⟨S, g, a.goTo (a.frame.ip + 1) :: rest⟩ :=
  (does_fetch_typed hm.toTyped hw).imp fun _ _ h =>
    ⟨h.1, h.2.1, by rw [h.2.2.heap, h.2.2.openUpvalues]; exact hm.lists⟩

/-- A constant is what the context says. -/
theorem does_constant {k : UInt16} {t : Option ObjectType} (hm : m.Shows W ⟨S, g, a :: rest⟩)
    (hk : a.context.constants[k.toNat]? = some t) :
    Does (constant k m) fun v m' => m' = m ∧ W.typeOf v = t ∧ W.Holds v .any ∧
      ∀ x, v.toHandle? = some x → m.Keeps x := by
  have hr := hm.runs a List.mem_cons_self
  rw [hr.constants, List.getElem?_map, Array.getElem?_toList, Option.map_eq_some_iff] at hk
  obtain ⟨v, hv, ht⟩ := hk
  rw [← hr.chunk] at hv
  refine (does_frame hm.toTyped).bind fun f m' h => ?_
  obtain ⟨rfl, rfl⟩ := h
  simp only [hv]
  have hmem : v ∈ a.prototype.chunk.constants := hr.chunk ▸ Array.mem_of_getElem? hv
  obtain ⟨captures, hknown⟩ := hr.known
  obtain ⟨f, -, hobject, hd⟩ := hm.fits.prototype hknown
  rw [hr.function, Option.some.injEq, Object.function.injEq] at hobject
  subst hobject
  cases hd with
  | function _ constants _ =>
    exact ⟨rfl, ht, constants v hmem, fun x hat =>
      (hm.keeps_function List.mem_cons_self).step hr.function (.functionConstant hmem hat)⟩

/-- A constant that is known by its object is a reference to it. -/
theorem does_constantHandle {k : UInt16} {t : ObjectType} (hm : m.Shows W ⟨S, g, a :: rest⟩)
    (hk : a.context.constants[k.toNat]? = some (some t)) :
    Does (constantHandle k m) fun r m' => m' = m ∧ W r = some t ∧ m.Keeps r := by
  refine (does_constant hm hk).bind fun v m' h => ?_
  obtain ⟨rfl, ht, -, hkeeps⟩ := h
  obtain ⟨r, hat, hr⟩ := Option.bind_eq_some_iff.mp ht
  rw [handleOf]
  simp only [hat]
  exact ⟨rfl, hr, hkeeps r hat⟩

/-- A value that is known to be a reference is one. -/
theorem does_handleOf {t : ObjectType} (hv : ∃ r, v.toHandle? = some r ∧ W r = some t) :
    Does (handleOf v m) fun r m' => m' = m ∧ v.toHandle? = some r ∧ W r = some t := by
  obtain ⟨r, hat, hr⟩ := hv
  rw [handleOf]
  simp only [hat]
  exact ⟨rfl, rfl, hr⟩

/-! ### Texts and errors -/

/-- A string that is known has its text. -/
theorem does_textOf {chars : String} (hm : m.Shows W O) (hr : W r = some (.text chars)) :
    Does (textOf r m) fun s m' => m' = m ∧ s = chars :=
  does_bind_ok (readHeap_eq (hm.fits.string hr)) ⟨rfl, rfl⟩

/-- What succeeds for each value succeeds for all of them. -/
theorem exists_mapM {f : Value → Except Fault β} {vs : List Value}
    (hf : ∀ v ∈ vs, ∃ b, f v = .ok b) : ∃ bs, vs.mapM f = .ok bs := by
  induction vs with
  | nil => exact ⟨[], rfl⟩
  | cons v vs ih =>
    obtain ⟨⟨b, hb⟩, hrest⟩ := List.forall_mem_cons.mp hf
    obtain ⟨bs, hbs⟩ := ih hrest
    refine ⟨b :: bs, ?_⟩
    rw [List.mapM_cons, hb]
    show (vs.mapM f >>= fun bs => pure (b :: bs)) = _
    rw [hbs]
    rfl

/-- Operands are objects that are there, so their types can be named. -/
theorem does_raiseMismatch {operator : Symbol} {rule : OperandRule} {vs : List Value}
    (hm : m.Shows W O) (hv : ∀ v ∈ vs, W.Holds v .any) :
    Does ((raiseMismatch operator rule vs : Exec α) m) Q := by
  obtain ⟨names, hnames⟩ := exists_mapM fun v hmem => hm.fits.typeName (hv v hmem)
  exact does_bind_ok (readHeap_eq hnames) (does_raise hm)

/-- Printing leaves what is shown. -/
theorem does_printLine (line : String) (hm : m.Shows W O) :
    Does (printLine line m) fun _ m' => m'.Shows W O := by
  have hshows (sink : Sink) : { m with sink := sink }.Shows W O := ⟨{ hm.toTyped with }, hm.lists⟩
  rw [printLine]
  dsimp only
  split
  · exact hshows _
  · exact ⟨_, _, hshows _⟩

/-! ### Globals -/

/-- A global variable is set with what it may hold. -/
theorem does_setGlobal {k : Key} (hm : m.Shows W ⟨S, g, act⟩) (hk : W.KeyOk k)
    (hv : W.Holds v .any) : Does (setGlobal k v m) fun _ m' =>
      m'.Shows W ⟨S, none, act⟩ ∧ m'.globals = (m.globals.insert k v).2 := by
  have halike : m.heap.Alike (m.heap.chargeGrowth m.globals.capacity
      (m.globals.insert k v).2.capacity) := ⟨rfl, rfl, rfl, rfl, rfl⟩
  have hm' := hm.forget.alike halike
  exact ⟨⟨{ hm'.toTyped with
    globals := hm.globals.insert hk hv
    known := fun _ hs => by cases hs }, hm'.lists⟩, rfl⟩

/-- A global variable is removed. -/
theorem does_eraseGlobal {k : Key} (hm : m.Shows W ⟨S, g, act⟩) (hk : W.KeyOk k) :
    Does (eraseGlobal k m) fun _ m' => m'.Shows W ⟨S, none, act⟩ :=
  ⟨{ hm.forget.toTyped with
    globals := hm.globals.erase hk
    known := fun _ hs => by cases hs }, hm.lists⟩

/-! ### Allocation -/

/-- An allocation of `o` made `r`, known as `t` in `V`, and left the heap `h'`. -/
structure Allocates (m : Machine) (W : World) (o : Object) (t : ObjectType) (r : Handle) (h' : Heap)
    (V : World) : Prop where
  carries : W.Carries m.heap (m.roots ++ o.references) V h'
  sound : h'.Sound
  type : V r = some t
  new : h'.object? r = some o
  old : ∀ x o', h'.object? x = some o' → x ≠ r → m.heap.object? x = some o'

/-- What a machine keeps alive is carried over. -/
theorem Allocates.kept {o : Object} {t : ObjectType} {h' : Heap} {V : World}
    (ha : Allocates m W o t r h' V) : W.Carries m.heap m.roots V h' :=
  ha.carries.mono fun _ => List.mem_append_left _

/-- What the object refers to is known as before. -/
theorem Allocates.refers {o : Object} {t s : ObjectType} {h' : Heap} {V : World} {x : Handle}
    (ha : Allocates m W o t r h' V) (hx : o.Stores x) (hs : W x = some s) : V x = some s :=
  ha.carries.types x s (.root (List.mem_append_right _ (Object.mem_references.mpr hx))) hs

/-- Allocating a described object succeeds unless the arena is exhausted. -/
theorem does_alloc_raw {o : Object} {t : ObjectType} (hm : m.Typed W O)
    (hl : W.Lists m.heap T m.openUpvalues) (hd : W.Describes t o) (hno : ∀ s, o ≠ .string s) :
    Does (alloc o m) fun r m' =>
      ∃ h' V, m' = { m with heap := h' } ∧ Allocates m W o t r h' V := by
  have hroots (r : Handle) (hr : r ∈ m.roots ++ o.references) : W.Knows r := by
    rcases List.mem_append.mp hr with hr | hr
    · exact hm.knows hl hr
    · exact hd.knows (Object.mem_references.mp hr)
  rcases hm.sound.alloc o hno (hm.fits.covers hroots) with ⟨r, h', heq, ha, hsound⟩ | heq
  · obtain ⟨V, hfits, hgrows⟩ := hm.fits.alloc ha hd
    rw [alloc, changeHeapRooted_eq heq]
    exact ⟨h', V, rfl, ⟨hfits, hgrows.kept, ha.kept⟩, hsound, hgrows.new, ha.new, ha.old⟩
  · exact does_changeHeapRooted_full heq

/-- A new object is one more that is known. -/
theorem does_alloc {o : Object} {t : ObjectType} (hm : m.Shows W O) (hd : W.Describes t o)
    (hno : ∀ s, o ≠ .string s) (hopen : ∀ j, o ≠ .upvalue (.onStack j)) :
    Does (alloc o m) fun r m' => ∃ V, m'.Shows V O ∧ V r = some t ∧
      ∀ x s, m.Keeps x ∨ o.Stores x → W x = some s → V x = some s := by
  refine (does_alloc_raw hm.toTyped hm.lists hd hno).imp fun r m' h => ?_
  obtain ⟨h', V, rfl, ha⟩ := h
  refine ⟨V, hm.carry ha.kept ha.sound fun x j hj => ?_, ha.type, fun x s hx hs =>
    hx.elim (fun hx => ha.kept.types x s hx hs) fun hx => ha.refers hx hs⟩
  refine ha.old x _ hj ?_
  rintro rfl
  exact hopen j (Option.some.inj (ha.new.symm.trans hj))

/-- An interned string is known with its text. -/
theorem does_intern (chars : String) (hm : m.Shows W O) :
    Does (intern chars m) fun r m' => ∃ V, m'.Shows V O ∧ V r = some (.text chars) := by
  rcases hm.sound.intern chars (hm.covers hm.lists) with ⟨r, h', heq, hi⟩ | heq
  · obtain ⟨V, hfits, hgrows⟩ := hm.fits.intern hi
    rw [intern, changeHeapRooted_eq heq]
    refine ⟨V, hm.carry ⟨hfits, hgrows.kept, hi.kept⟩ hi.sound fun x j hj => ?_, hgrows.new⟩
    refine hi.old x _ hj ?_
    rintro rfl
    cases hi.new.symm.trans hj
  · exact does_changeHeapRooted_full heq

/-! ### Updates of objects -/

/-- A field of an instance is set with what it may hold. -/
theorem does_setField {k : Key} (hm : m.Shows W O) (hr : W r = some .instance_) (hk : W.KeyOk k)
    (hv : W.Holds v .any) :
    Does (changeHeap (fun heap => heap.setField r k v) m) fun _ m' => m'.Shows W O := by
  obtain ⟨i, hi, hobject, hclass, hfields⟩ := hm.fits.instance_ hr
  have hset : m.heap.setField r k v = .ok ((i.fields.insert k v).1,
      (m.heap.replace r (.instance_ { i with fields := (i.fields.insert k v).2 })).chargeGrowth
        i.fields.capacity (i.fields.insert k v).2.capacity) := by
    rw [Heap.setField, hi]
    rfl
  rw [changeHeap_eq (f := fun heap => heap.setField r k v) hset]
  exact (hm.replace (.instance_ { i with fields := (i.fields.insert k v).2 }) hobject hr
    (.instance_ hclass (hfields.insert hk hv)) (.inl rfl)).alike ⟨rfl, rfl, rfl, rfl, rfl⟩

/-- A method of a class is set with a closure. -/
theorem does_setMethod {k : Key} (hm : m.Shows W O) (hr : W r = some .class_) (hk : W.KeyOk k)
    (hv : W.Holds v .closure) :
    Does (changeHeap (fun heap => do
      let heap ← heap.setMethod r k v
      return ((), heap)) m) fun _ m' => m'.Shows W O := by
  obtain ⟨c, chars, hc, hobject, hname, hmethods⟩ := hm.fits.class_ hr
  have hset : m.heap.setMethod r k v = .ok
      ((m.heap.replace r (.class_ { c with methods := (c.methods.insert k v).2 })).chargeGrowth
        c.methods.capacity (c.methods.insert k v).2.capacity) := by
    rw [Heap.setMethod, hc]
    rfl
  rw [changeHeap_eq (b := ()) (by rw [hset]; rfl)]
  exact (hm.replace (.class_ { c with methods := (c.methods.insert k v).2 }) hobject hr
    (.class_ hname (hmethods.insert hk hv)) (.inr rfl)).alike ⟨rfl, rfl, rfl, rfl, rfl⟩

/-- A class inherits closures. -/
theorem does_inheritMethods {x : Handle} (hm : m.Shows W O) (hr : W r = some .class_)
    (hx : W x = some .class_) :
    Does (changeHeap (fun heap => do
      let heap ← heap.inherit r x
      return ((), heap)) m) fun _ m' => m'.Shows W O := by
  obtain ⟨s, _, hs, -, -, hmethods'⟩ := hm.fits.class_ hx
  obtain ⟨c, chars, hc, hobject, hname, hmethods⟩ := hm.fits.class_ hr
  have hset : m.heap.inherit r x = .ok
      ((m.heap.replace r (.class_ { c with methods := c.methods.insertAll s.methods })).chargeGrowth
        c.methods.capacity (c.methods.insertAll s.methods).capacity) := by
    rw [Heap.inherit, hs]
    show (m.heap.class_ r >>= _) = _
    rw [hc]
    rfl
  rw [changeHeap_eq (b := ()) (by rw [hset]; rfl)]
  exact (hm.replace (.class_ { c with methods := c.methods.insertAll s.methods }) hobject hr
    (.class_ hname (hmethods.insertAll hmethods')) (.inr rfl)).alike ⟨rfl, rfl, rfl, rfl, rfl⟩

end Exec

end ScriptMachine
