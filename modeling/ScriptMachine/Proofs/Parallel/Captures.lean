import ScriptMachine.Machine.Step
import ScriptMachine.Proofs.Machine.Capture
import ScriptMachine.Proofs.Parallel.Agreement

/-!
# Captured variables and calls of corresponding machines

Corresponding upvalues stand for the same slot or hold corresponding values. So both machines find,
make and close the same upvalues, and their lists of open upvalues stay paired.

Corresponding callees are of one kind and of one arity, and methods are found under the same names.
So both machines enter the same code, get the same answer of a native function, or fail alike.
-/

namespace ScriptMachine

namespace Heap

variable {h : Heap}

/-- An upvalue that is found for a slot is one of those searched. -/
theorem mem_of_firstOpen? {slot : Nat} {rs : List Handle} {r : Handle}
    (hfirst : h.firstOpen? slot rs = .ok (some r)) : r ∈ rs := by
  cases rs with
  | nil => cases hfirst
  | cons x rest =>
    rw [firstOpen?] at hfirst
    cases hx : h.openSlot x with
    | error e =>
      rw [hx] at hfirst
      cases hfirst
    | ok found =>
      rw [hx] at hfirst
      have hif := Except.ok.inj hfirst
      dsimp only at hif
      split at hif
      · exact Option.some.inj hif ▸ List.mem_cons_self
      · cases hif

end Heap

namespace Machine

variable {m : Machine} {x : Handle} {boundary : Nat} {upper lower : List Handle}

/-- The split at a slot leaves no upvalue out and adds none. -/
theorem mem_openUpvalues_of_split
    (hsplit : m.heap.splitOpen boundary [] m.openUpvalues = .ok (upper, lower)) :
    x ∈ m.openUpvalues ↔ x ∈ upper ∨ x ∈ lower := by
  have hlist : upper.reverse ++ lower = m.openUpvalues := Heap.splitOpen_append hsplit
  rw [← hlist, List.mem_append, List.mem_reverse]

/-- The upvalues on both sides of the split are kept alive. -/
theorem keeps_split (hsplit : m.heap.splitOpen boundary [] m.openUpvalues = .ok (upper, lower))
    (hx : x ∈ upper ∨ x ∈ lower) : m.Keeps x :=
  keeps_upvalue ((mem_openUpvalues_of_split hsplit).mpr hx)

end Machine

namespace Pairing

variable {p : Pairing} {h h' : Heap} {x y : Handle}

/-- Paired upvalues are of one kind, and stand for paired values. -/
theorem Heaps.upvalue (hp : p.Heaps h h') (hxy : p.Pairs x y) :
    FindAlike (fun u u' => p.Objects (.upvalue u) (.upvalue u')) (h.upvalue x) (h'.upvalue y) :=
  hp.finds hxy Heap.object?_of_upvalue

/-- Paired upvalues are open over the same slot or both closed. -/
theorem Heaps.openSlot (hp : p.Heaps h h') (hxy : p.Pairs x y) :
    FindAlike (fun i j => i = j ∧ p.terms.Above i) (h.openSlot x) (h'.openSlot y) := by
  intro i j hi hj
  have hu := hp.upvalue hxy
  unfold Heap.openSlot at hi hj
  split at hi
  · next slot hx =>
    split at hj
    · next slot' hy =>
      cases hi
      cases hj
      have hcorr := hu _ _ hx hy
      cases hcorr with
      | onStack above => exact ⟨rfl, above⟩
    · cases hj
    · cases hj
  · cases hi
  · cases hi

/-- Paired upvalues are split alike. -/
theorem Heaps.splitOpen (hp : p.Heaps h h') (boundary : Nat) {above above' rs rs' : List Handle}
    (habove : List.Forall₂ p.Pairs above above') (hrs : List.Forall₂ p.Pairs rs rs') :
    FindAlike (fun a b => List.Forall₂ p.Pairs a.1 b.1 ∧ List.Forall₂ p.Pairs a.2 b.2)
      (h.splitOpen boundary above rs) (h'.splitOpen boundary above' rs') := by
  induction hrs generalizing above above' with
  | nil => exact findAlike_ok ⟨habove, .nil⟩
  | @cons r r' rs rs' hr hrs ih =>
    have hslot := hp.openSlot hr
    rw [Heap.splitOpen, Heap.splitOpen]
    cases hx : h.openSlot r with
    | error e =>
      intro _ _ ha
      cases ha
    | ok slot =>
      cases hy : h'.openSlot r' with
      | error e =>
        intro _ _ _ hb
        cases hb
      | ok slot' =>
        obtain ⟨rfl, -⟩ := hslot _ _ hx hy
        dsimp only
        split
        · exact ih (.cons hr habove)
        · exact findAlike_ok ⟨habove, .cons hr hrs⟩

/-- The same slot has paired upvalues, or none on both sides. -/
theorem Heaps.firstOpen? (hp : p.Heaps h h') (slot : Nat) {rs rs' : List Handle}
    (hrs : List.Forall₂ p.Pairs rs rs') :
    FindAlike (Option.Rel p.Pairs) (h.firstOpen? slot rs) (h'.firstOpen? slot rs') := by
  cases hrs with
  | nil => exact findAlike_ok .none
  | @cons r r' _ _ hr _ =>
    refine (hp.openSlot hr).bind (f := fun found => .ok (if found = slot then some r else none))
      (g := fun found => .ok (if found = slot then some r' else none)) fun i j hij => ?_
    obtain ⟨rfl, -⟩ := hij
    refine findAlike_ok ?_
    split
    · exact .some hr
    · exact .none

end Pairing

namespace Exec

open Pairing

variable {γ δ : Type} {p q : Pairing} {m n m' n' : Machine} {v w : Value} {x y : Handle}
  {T : Pairing → γ → δ → Machine → Machine → Prop}

/-- A new open upvalue is among the roots, and so is what was. -/
theorem Grows.mem_roots_listed {boundary : Nat} {upper lower : List Handle} {r : Handle}
    (hg : Grows m m') (hsplit : m.heap.splitOpen boundary [] m.openUpvalues = .ok (upper, lower))
    (hx : x ∈ m'.roots ∨ x = r) :
    x ∈ { m' with openUpvalues := upper.reverseAux (r :: lower) }.roots := by
  obtain ⟨h, rfl, -⟩ := hg
  rw [Machine.mem_roots] at hx ⊢
  have hlisted : x ∈ upper.reverseAux (r :: lower) ↔ x ∈ m.openUpvalues ∨ x = r := by
    rw [Machine.mem_openUpvalues_of_split hsplit, List.reverseAux_eq, List.mem_append,
      List.mem_reverse, List.mem_cons, or_left_comm, or_comm]
  dsimp only at hx ⊢
  rw [hlisted]
  rcases hx with (hx | hx | hx | hx | hx) | hx
  · exact .inl hx
  · exact .inr (.inl hx)
  · exact .inr (.inr (.inl (.inl hx)))
  · exact .inr (.inr (.inr (.inl hx)))
  · exact .inr (.inr (.inr (.inr hx)))
  · exact .inr (.inr (.inl (.inr hx)))

/-- What both machines keep alive stays so, and paired. -/
structure Retains (p : Pairing) (m n : Machine) (q : Pairing) (m' n' : Machine) : Prop where
  pairs : ∀ x y, p.Pairs x y → m.Keeps x → n.Keeps y → q.Pairs x y
  left : ∀ x, m.Keeps x → m'.Keeps x
  right : ∀ y, n.Keeps y → n'.Keeps y

/-- What is kept alive is retained by doing nothing. -/
theorem Retains.refl (p : Pairing) (m n : Machine) : Retains p m n p m n :=
  ⟨fun _ _ hxy _ _ => hxy, fun _ hx => hx, fun _ hy => hy⟩

/-- What is retained twice is retained. -/
theorem Retains.trans {s : Pairing} {m'' n'' : Machine} (h : Retains p m n q m' n')
    (h' : Retains q m' n' s m'' n'') : Retains p m n s m'' n'' :=
  ⟨fun x y hxy hx hy => h'.pairs x y (h.pairs x y hxy hx hy) (h.left x hx) (h.right y hy),
    fun x hx => h'.left x (h.left x hx), fun y hy => h'.right y (h.right y hy)⟩

/-- The paired upvalues `x` and `y` were found or made, and are kept alive. -/
structure Captured (p : Pairing) (m n : Machine) (q : Pairing) (x y : Handle) (m' n' : Machine) :
    Prop where
  pair : q.Pairs x y
  left : m'.Keeps x
  right : n'.Keeps y
  retains : Retains p m n q m' n'
  frames : m'.frames = m.frames
  frames' : n'.frames = n.frames

/-- Both answer with the upvalue of a slot, which is kept alive. -/
theorem agree_captureSlot {slot : Nat} (hm : p.Machines m n) (habove : p.terms.Above slot) :
    Agree p (Captured p m n) (captureSlot slot m) (captureSlot slot n) := by
  show Agree p _ (((readHeap (·.splitOpen slot [] m.openUpvalues)) >>= _) m)
    (((readHeap (·.splitOpen slot [] n.openUpvalues)) >>= _) n)
  refine agree_readHeap (hm.heaps.splitOpen slot .nil hm.openUpvalues) fun a b ha hb hab => ?_
  obtain ⟨upper, lower⟩ := a
  obtain ⟨upper', lower'⟩ := b
  obtain ⟨hupper, hlower⟩ := hab
  refine agree_readHeap (hm.heaps.firstOpen? slot hupper) fun a b hfirst hfirst' hab => ?_
  cases hab with
  | some hr =>
    exact agree_pure hm ⟨hr, Machine.keeps_split ha (.inl (Heap.mem_of_firstOpen? hfirst)),
      Machine.keeps_split hb (.inl (Heap.mem_of_firstOpen? hfirst')), .refl p m n, rfl, rfl⟩
  | none =>
    refine (agree_alloc hm (.onStack habove) nofun nofun).bind fun q r r' m' n' hl hm' hg => ?_
    have hcarry {xs ys : List Handle} (hxy : List.Forall₂ p.Pairs xs ys)
        (hxs : ∀ x ∈ xs, m.Keeps x) (hys : ∀ y ∈ ys, n.Keeps y) : List.Forall₂ q.Pairs xs ys :=
      forall₂_pairs_carry hxy fun x hx y hxy => by
        obtain ⟨y', hy', hxy'⟩ := exists_of_mem_left ‹List.Forall₂ p.Pairs xs ys› hx
        obtain rfl := p.unique.2 hxy hxy'
        exact hg.held hxy (hxs x hx) (hys y hy')
    have hopen : List.Forall₂ q.Pairs (upper.reverseAux (r :: lower))
        (upper'.reverseAux (r' :: lower')) := by
      rw [List.reverseAux_eq, List.reverseAux_eq]
      refine List.rel_append (List.rel_reverse (hcarry hupper ?_ ?_)) (.cons hg.pair (hcarry hlower ?_ ?_))
      · exact fun _ h => Machine.keeps_split ha (.inl h)
      · exact fun _ h => Machine.keeps_split hb (.inl h)
      · exact fun _ h => Machine.keeps_split ha (.inr h)
      · exact fun _ h => Machine.keeps_split hb (.inr h)
    exact .ok rfl { hm' with openUpvalues := hopen } {
      pair := hg.pair
      left := .root (hg.left.mem_roots_listed ha (.inr rfl))
      right := .root (hg.right.mem_roots_listed hb (.inr rfl))
      retains := ⟨fun x y => hg.held,
        fun x hx => (hg.left.keeps hx).mono fun z hz => hg.left.mem_roots_listed ha (.inl hz),
        fun y hy => (hg.right.keeps hy).mono fun z hz => hg.right.mem_roots_listed hb (.inl hz)⟩
      frames := hg.left.frames
      frames' := hg.right.frames }

/-- Paired upvalues are closed one after the other. -/
theorem agree_closeEach {rs rs' : List Handle} (hm : p.Machines m n)
    (hrs : List.Forall₂ p.Pairs rs rs') : Agree p (Still p) (closeEach rs m) (closeEach rs' n) := by
  induction hrs generalizing m n with
  | nil => exact agree_pure hm rfl
  | cons hr _ ih =>
    rw [closeEach, closeEach]
    refine agree_readHeap (hm.heaps.openSlot hr) fun i j _ _ hij => ?_
    obtain ⟨rfl, habove⟩ := hij
    refine agree_readSlot hm habove fun v w hvw => ?_
    exact (agree_setUpvalue hm hr hvw).andThen fun _ _ _ _ hm' => ih hm'

/-- The same upvalues are closed on both sides. -/
theorem agree_closeUpvalues {boundary : Nat} (hm : p.Machines m n) :
    Agree p (Still p) (closeUpvalues boundary m) (closeUpvalues boundary n) := by
  show Agree p _ (((readHeap (·.splitOpen boundary [] m.openUpvalues)) >>= _) m)
    (((readHeap (·.splitOpen boundary [] n.openUpvalues)) >>= _) n)
  refine agree_readHeap (hm.heaps.splitOpen boundary .nil hm.openUpvalues) fun _ _ _ _ hab => ?_
  exact (agree_closeEach hm hab.1).andThen fun _ _ _ _ hm' =>
    .ok rfl { hm' with openUpvalues := hab.2 } rfl

/-- An upvalue of the running closures, which is kept alive. -/
theorem agree_frameUpvalue {index : Nat} {k : Handle → Exec γ} {k' : Handle → Exec δ}
    (hm : p.Machines m n) (habove : p.terms.Above (m.frames.size - 1))
    (hk : ∀ x y, p.Pairs x y → m.Keeps x → n.Keeps y → Agree p T (k x m) (k' y n)) :
    Agree p T ((frameUpvalue index >>= k) m) ((frameUpvalue index >>= k') n) := by
  rw [frameUpvalue, bind_assoc, bind_assoc]
  refine agree_frame hm fun f g hf hg hfg => ?_
  obtain ⟨hclosures, -, -⟩ := hfg.pair habove
  rw [bind_assoc, bind_assoc]
  refine agree_readHeap (hm.heaps.finds hclosures Heap.object?_of_closure) fun c d hc hd hcd => ?_
  have hobject := Heap.object?_of_closure hc
  have hobject' := Heap.object?_of_closure hd
  cases hcd with
  | closure _ upvalues =>
    have hrel := forall₂_getElem? upvalues index
    rw [Array.getElem?_toList, Array.getElem?_toList] at hrel
    cases hx : c.upvalues[index]? with
    | none => exact agree_bind_fault_left rfl
    | some x =>
      cases hy : d.upvalues[index]? with
      | none => exact agree_bind_fault_right rfl
      | some y =>
        rw [hx, hy] at hrel
        cases hrel with
        | some hxy =>
          have hkept := Machine.keeps_frame (Array.mem_of_back? hf)
          have hkept' := Machine.keeps_frame (Array.mem_of_back? hg)
          exact hk x y hxy
            (hkept.step hobject (.closureUpvalue (Array.mem_of_getElem? hx)))
            (hkept'.step hobject' (.closureUpvalue (Array.mem_of_getElem? hy)))

/-- Paired upvalues are read alike. -/
theorem agree_readUpvalue {k : Value → Exec γ} {k' : Value → Exec δ} (hm : p.Machines m n)
    (hxy : p.Pairs x y) (hk : ∀ v w, p.Values v w → Agree p T (k v m) (k' w n)) :
    Agree p T ((readUpvalue x >>= k) m) ((readUpvalue y >>= k') n) := by
  rw [readUpvalue, readUpvalue, bind_assoc, bind_assoc]
  refine agree_readHeap (hm.heaps.upvalue hxy) fun u u' _ _ hu => ?_
  cases hu with
  | onStack above => exact agree_readSlot hm above hk
  | closed value => exact hk _ _ value

/-- Paired upvalues are written alike. -/
theorem agree_writeUpvalue (hm : p.Machines m n) (hxy : p.Pairs x y) (hvw : p.Values v w) :
    Agree p Any (writeUpvalue x v m) (writeUpvalue y w n) := by
  refine agree_readHeap (hm.heaps.upvalue hxy) fun u u' _ _ hu => ?_
  cases hu with
  | onStack => exact (agree_writeSlot hm hvw).any
  | closed _ => exact (agree_setUpvalue hm hxy hvw).any

/-! ### Closures -/

/-- What a capture in the innermost function names is compared. -/
def Seen (t : Terms) (m : Machine) (f : Frame) (c : Capture) : Prop :=
  t.Above (if c.isLocal then f.base + c.index.toNat else m.frames.size - 1)

/-- The next words of the innermost functions are the same captures, and what they name is
compared. -/
def Ahead (t : Terms) (m n : Machine) (count : Nat) : Prop :=
  ∀ f g, m.frames.back? = some f → n.frames.back? = some g → ∀ i < count,
    f.chunk.code[f.ip + i]? = g.chunk.code[g.ip + i]? ∧
      ∀ word, f.chunk.code[f.ip + i]? = some word → Seen t m f (Capture.decode word)

/-- Functions whose closures are paired have the same words ahead. -/
theorem ahead_of_above {count : Nat} (hm : p.Machines m n)
    (habove : p.terms.Above (m.frames.size - 1)) : Ahead p.terms m n count := by
  intro f g hf hg i _
  have hback := hm.frames.back?
  rw [hf, hg] at hback
  cases hback with
  | some hfg =>
    obtain ⟨hclosures, hip, hbase⟩ := hfg.pair habove
    have hcode := (hm.chunks (Array.mem_of_back? hf) (Array.mem_of_back? hg) hclosures).code
    refine ⟨by rw [hcode, hip], fun word _ => ?_⟩
    show p.terms.Above (if _ then _ else _)
    split
    · exact hbase.mono (Nat.le_add_right _ _)
    · exact habove

/-- One word is behind once it is read. -/
theorem Ahead.next {t : Terms} {f g : Frame} {word word' : UInt32} {count : Nat}
    (h : Ahead t m n (count + 1)) (hf : Fetched m f word m') (hg : Fetched n g word' n') :
    word = word' ∧ Seen t m f (Capture.decode word) ∧ Ahead t m' n' count := by
  obtain ⟨hsame, hseen⟩ := h f g hf.back hg.back 0 (Nat.zero_lt_succ _)
  rw [Nat.add_zero, Nat.add_zero, hf.word, hg.word] at hsame
  refine ⟨Option.some.inj hsame, hseen word hf.word, fun f' g' hf' hg' i hi => ?_⟩
  obtain rfl := Option.some.inj (hf.back?.symm.trans hf')
  obtain rfl := Option.some.inj (hg.back?.symm.trans hg')
  obtain ⟨hsame, hseen⟩ := h f g hf.back hg.back (i + 1) (Nat.succ_lt_succ hi)
  dsimp only
  rw [Nat.add_assoc, Nat.add_assoc g.ip, Nat.add_comm 1 i]
  refine ⟨hsame, fun word hword => ?_⟩
  have hword := hseen word hword
  unfold Seen at hword ⊢
  rwa [hf.size]

/-- The upvalues that were found are paired and kept alive. -/
def AllKept (q : Pairing) (xs ys : Array Handle) (m n : Machine) : Prop :=
  List.Forall₂ (fun x y => q.Pairs x y ∧ m.Keeps x ∧ n.Keeps y) xs.toList ys.toList

/-- Upvalues found stay paired and kept alive. -/
theorem AllKept.retain {xs ys : Array Handle} (h : AllKept p xs ys m n)
    (hr : Retains p m n q m' n') : AllKept q xs ys m' n' :=
  List.Forall₂.imp (fun x y hxy =>
    ⟨hr.pairs x y hxy.1 hxy.2.1 hxy.2.2, hr.left x hxy.2.1, hr.right y hxy.2.2⟩) h

/-- One more upvalue found is kept with the others. -/
theorem AllKept.push {xs ys : Array Handle} (h : AllKept p xs ys m n) (hxy : p.Pairs x y)
    (hx : m.Keeps x) (hy : n.Keeps y) : AllKept p (xs.push x) (ys.push y) m n := by
  rw [AllKept, Array.toList_push, Array.toList_push]
  exact List.rel_append h (.cons ⟨hxy, hx, hy⟩ .nil)

/-- The captures of a closure are found or made alike, by induction on how many are left. -/
theorem agree_captures {count : Nat} {xs ys : Array Handle} (hm : p.Machines m n)
    (hahead : Ahead p.terms m n count) (hdone : AllKept p xs ys m n) :
    Agree p (fun q xs ys m' n' => AllKept q xs ys m' n' ∧ Retains p m n q m' n')
      (captures count xs m) (captures count ys n) := by
  induction count generalizing p m n xs ys with
  | zero => exact agree_pure hm ⟨hdone, .refl p m n⟩
  | succ count ih =>
    rw [captures, captures]
    refine agree_fetch hm fun f g word word' m₁ n₁ hf hg _ hm₁ => ?_
    obtain ⟨rfl, hseen, hahead⟩ := hahead.next hf hg
    have hstart : Retains p m n p m₁ n₁ :=
      ⟨fun _ _ hxy _ _ => hxy, fun _ => hf.keeps, fun _ => hg.keeps⟩
    dsimp only
    split
    · next hlocal =>
      refine agree_frame hm₁ fun f' g' hf' _ hfg => ?_
      obtain rfl := Option.some.inj (hf.back?.symm.trans hf')
      rw [← hfg.base]
      rw [Seen, if_pos hlocal] at hseen
      refine (agree_captureSlot hm₁ hseen).bind fun q x y m₂ n₂ hterms hm₂ hx => ?_
      have hr := hstart.trans hx.retains
      have hahead' : Ahead q.terms m₂ n₂ count := by
        unfold Ahead Seen
        rw [hx.frames, hx.frames', hterms]
        exact hahead
      exact (ih hm₂ hahead' ((hdone.retain hr).push hx.pair hx.left hx.right)).imp
        fun _ _ _ _ _ h => ⟨h.1, hr.trans h.2⟩
    · next hlocal =>
      rw [Seen, if_neg hlocal, ← hf.size] at hseen
      refine agree_frameUpvalue hm₁ hseen fun x y hxy hx hy => ?_
      exact (ih hm₁ hahead ((hdone.retain hstart).push hxy hx hy)).imp fun _ _ _ _ _ h =>
        ⟨h.1, hstart.trans h.2⟩

/-- Paired functions make paired closures. -/
theorem agree_makeClosure {k l : UInt16} (hm : p.Machines m n) (hkl : p.Constants m n k l)
    (hahead : ∀ f x a, m.frames.back? = some f →
      (f.chunk.constants[k.toNat]?).bind Value.toHandle? = some x →
      m.heap.object? x = some (.function a) → Ahead p.terms m n a.upvalueCount) :
    Agree p Any (makeClosure k m) (makeClosure l n) := by
  refine agree_constantHandle hm hkl fun x y hxy hx hy hfound => ?_
  refine agree_readHeap (hm.heaps.prototype hxy) fun f g hf _ hfg => ?_
  rw [← hfg.upvalueCount]
  obtain ⟨a, hback, hconstant⟩ := hfound
  have hwords := hahead a x f hback hconstant (Heap.object?_of_prototype hf)
  refine (agree_captures hm hwords (show AllKept p #[] #[] m n from .nil)).bind
    fun q xs ys m₁ n₁ _ hm₁ h => ?_
  obtain ⟨hkept, hr⟩ := h
  have hclosure : q.Objects (.closure ⟨x, xs⟩) (.closure ⟨y, ys⟩) :=
    .closure (hr.pairs x y hxy hx hy) (List.Forall₂.imp (fun _ _ h => h.1) hkept)
  exact (agree_alloc hm₁ hclosure nofun nofun).bind fun q' r r' m₂ n₂ _ hm₂ hg =>
    (agree_push hm₂ (.reference hg.pair)).any

/-! ### Calls -/

variable {x' y' : Handle} {T : Pairing → γ → δ → Machine → Machine → Prop} {count : UInt8}

/-- Paired closures are entered alike, or their calls fail alike. -/
theorem agree_callClosure (hm : p.Machines m n) (hxy : p.Pairs x y)
    (habove : p.terms.Above (m.stack.size - (count.toNat + 1))) :
    Agree p Any (callClosure x count m) (callClosure y count n) := by
  refine agree_readHeap (hm.heaps.finds hxy Heap.object?_of_closure) fun c d hc hd hcd => ?_
  cases hcd with
  | closure function _ =>
    refine agree_readHeap (hm.heaps.prototype function) fun f g hf hg hfg => ?_
    have hruns (base : Nat) : m.heap.Runs ⟨x, f.chunk, 0, base⟩ :=
      ⟨c, f, Heap.object?_of_closure hc, Heap.object?_of_prototype hf, rfl⟩
    have hruns' (base : Nat) : n.heap.Runs ⟨y, g.chunk, 0, base⟩ :=
      ⟨d, g, Heap.object?_of_closure hd, Heap.object?_of_prototype hg, rfl⟩
    dsimp only
    rw [hfg.arity]
    split
    · exact agree_raise_bind hm
    · refine agree_look ?_ fun full => ?_
      · rw [hm.framesMax, hm.frames.size, hm.stack.size]
      · split
        · exact agree_raise_bind hm
        · exact agree_slotAt hm fun base hbase =>
            .ok rfl (hm.pushFrame (.paired hxy rfl rfl (hbase ▸ habove)) (hruns base) (hruns' base))
              trivial

/-- The first arguments are paired. -/
theorem agree_firstArgument {vs ws : List Value} {k : Value → Exec γ} {k' : Value → Exec δ}
    (hvs : List.Forall₂ p.Values vs ws)
    (hk : ∀ v w, p.Values v w → Agree p T (k v m) (k' w n)) :
    Agree p T ((firstArgument vs >>= k) m) ((firstArgument ws >>= k') n) := by
  cases hvs with
  | nil => exact agree_bind_fault_left rfl
  | cons hvw _ => exact hk _ _ hvw

/-- A built-in function answers alike. -/
theorem agree_runNative {f : Native} {vs ws : List Value} (hm : p.Machines m n)
    (hvs : List.Forall₂ p.Values vs ws) :
    Agree p (fun q v w _ _ => q.Values v w) (runNative f vs m) (runNative f ws n) := by
  unfold runNative
  cases f.action
  · exact agree_look hm.clock fun t => agree_pure hm (.plain (Value.toHandle?_ofFloat t))
  · refine agree_firstArgument hvs fun v w hvw => ?_
    refine agree_readHeap (hm.heaps.display hvw) fun s t _ _ hst => hst ▸ ?_
    exact (agree_intern hm).bind fun q r r' m' n' _ hm' hg => agree_pure hm' (.reference hg.pair)
  · refine agree_firstArgument hvs fun v w hvw => ?_
    refine agree_readHeap (hm.heaps.string? hvw) fun s t _ _ hst => hst ▸ ?_
    split
    · exact agree_pure hm (.plain (Value.toHandle?_ofFloat _))
    · exact agree_readHeap (hm.heaps.typeName hvw) fun s t _ _ hst => hst ▸ agree_raise hm

/-- The call of a built-in function ends alike. -/
theorem agree_callNative (hm : p.Machines m n) (hxy : p.Pairs x y) :
    Agree p Any (callNative x count m) (callNative y count n) := by
  refine agree_readHeap (hm.heaps.native hxy) fun f g _ _ hfg => hfg ▸ ?_
  have hrest : Agree p Any
      ((do
        let callee ← slotAt count.toNat
        let args ← look fun m => (m.stack.extract (callee + 1) m.stack.size).toList
        let result ← runNative f args
        cutStack callee
        push result : Exec Unit) m)
      ((do
        let callee ← slotAt count.toNat
        let args ← look fun m => (m.stack.extract (callee + 1) m.stack.size).toList
        let result ← runNative f args
        cutStack callee
        push result : Exec Unit) n) := by
    refine agree_slotAt hm fun callee _ => ?_
    have hargs : List.Forall₂ p.Values (m.stack.extract (callee + 1) m.stack.size).toList
        (n.stack.extract (callee + 1) n.stack.size).toList := by
      rw [hm.stack.size]
      -- the callee is below the arguments, so none of them is a script
      exact hm.stack.toList_extract _ _ fun j _ _ hj hvw =>
        hvw.above (.inr (Nat.lt_of_lt_of_le (Nat.zero_lt_succ _) hj))
    refine (agree_runNative hm hargs).bind fun q v w m' n' _ hm' hvw => ?_
    exact (agree_cutStack hm').andThen fun _ _ _ _ hm'' => (agree_push hm'' hvw).any
  dsimp only
  cases f.arity with
  | none => exact hrest
  | some expected =>
    dsimp only
    split
    · exact agree_raise_bind hm
    · exact hrest

/-- Both classes have a method of the name, or neither. -/
theorem agree_findMethod {k : Option Value → Exec γ} {k' : Option Value → Exec δ}
    (hm : p.Machines m n) (hxy : p.Pairs x y) (hname : p.Pairs x' y')
    (hk : ∀ v w, Option.Rel p.Values v w → Agree p T (k v m) (k' w n)) :
    Agree p T ((findMethod x x' >>= k) m) ((findMethod y y' >>= k') n) := by
  rw [findMethod, findMethod, bind_assoc, bind_assoc]
  refine agree_readHeap (hm.heaps.key hname) fun a b _ _ hkey => ?_
  rw [bind_assoc, bind_assoc]
  refine agree_readHeap (hm.heaps.finds hxy Heap.object?_of_class) fun c d _ _ hcd => ?_
  cases hcd with
  | class_ _ methods => exact hk _ _ (methods.get? hkey)

/-- The call of a class makes paired instances and ends alike. -/
theorem agree_callClass (hm : p.Machines m n) (hxy : p.Pairs x y)
    (habove : p.terms.Above (m.stack.size - (count.toNat + 1))) :
    Agree p Any (callClass x count m) (callClass y count n) := by
  have hobject : p.Objects (.instance_ ⟨x, Table.empty⟩) (.instance_ ⟨y, Table.empty⟩) :=
    .instance_ hxy tables_empty
  refine (agree_alloc hm hobject nofun nofun).bind fun q r r' m₁ n₁ hterms hm₁ hg => ?_
  have hclass : q.Pairs x y :=
    hg.pairs x y hxy (.root (List.mem_append_right _ List.mem_cons_self))
      (.root (List.mem_append_right _ List.mem_cons_self))
  refine agree_slotAt hm₁ fun callee _ => ?_
  refine (agree_writeSlot hm₁ (.reference hg.pair)).afterLevel fun _ _ m₂ n₂ hm₂ hsize => ?_
  rw [← hterms, ← hg.left.stack, ← hsize] at habove
  refine agree_findMethod hm₂ hclass hm₂.initName fun v w hvw => ?_
  cases hvw with
  | some hvw => exact agree_handleOf hvw fun _ _ _ _ h => agree_callClosure hm₂ h habove
  | none =>
    dsimp only
    split
    · exact agree_raise hm₂
    · exact agree_pure hm₂ trivial

/-- Paired callees are called alike. -/
theorem agree_callValue (hm : p.Machines m n) (hvw : p.Values v w)
    (habove : p.terms.Above (m.stack.size - (count.toNat + 1))) :
    Agree p Any (callValue v count m) (callValue w count n) := by
  have hnot : Agree p Any
      ((do
        let found ← readHeap (·.typeName v)
        raise (.notCallable found) : Exec Unit) m)
      ((do
        let found ← readHeap (·.typeName w)
        raise (.notCallable found) : Exec Unit) n) :=
    agree_readHeap (hm.heaps.typeName hvw) fun _ _ _ _ hst => hst ▸ agree_raise hm
  have hrel := hvw.toHandle?
  unfold callValue
  generalize v.toHandle? = a at hrel
  generalize w.toHandle? = b at hrel
  cases hrel with
  | none => exact hnot
  | some hxy =>
    refine agree_readHeap (hm.heaps.object hxy) fun o o' _ _ ho => ?_
    cases ho with
    | closure _ _ => exact agree_callClosure hm hxy habove
    | native => exact agree_callNative hm hxy
    | class_ _ _ => exact agree_callClass hm hxy habove
    | boundMethod receiver method =>
      refine agree_slotAt hm fun slot _ => ?_
      exact (agree_writeSlot hm receiver).afterLevel fun _ _ _ _ hm' hsize =>
        agree_callClosure hm' method (hsize ▸ habove)
    | string | function _ | onStack _ | closed _ | instance_ _ _ => exact hnot

/-- The error over a value without properties names the same type. -/
theorem agree_raiseNotAnInstance (hm : p.Machines m n) (hvw : p.Values v w) :
    Agree p T ((raiseNotAnInstance v : Exec γ) m) ((raiseNotAnInstance w : Exec δ) n) :=
  agree_readHeap (hm.heaps.typeName hvw) fun _ _ _ _ hst => hst ▸ agree_raise hm

/-- The error over a property that is not found names it alike. -/
theorem agree_raiseUndefinedProperty (hm : p.Machines m n) (hxy : p.Pairs x y) :
    Agree p T ((raiseUndefinedProperty x : Exec γ) m) ((raiseUndefinedProperty y : Exec δ) n) :=
  agree_textOf hm hxy fun _ => agree_raise hm

/-- The same method of paired classes is called. -/
theorem agree_invokeFromClass (hm : p.Machines m n) (hxy : p.Pairs x y) (hname : p.Pairs x' y')
    (habove : p.terms.Above (m.stack.size - (count.toNat + 1))) :
    Agree p Any (invokeFromClass x x' count m) (invokeFromClass y y' count n) :=
  agree_findMethod hm hxy hname fun v w hvw => by
    cases hvw with
    | some hvw => exact agree_handleOf hvw fun _ _ _ _ h => agree_callClosure hm h habove
    | none => exact agree_raiseUndefinedProperty hm hname

/-- The same field or method of paired objects is called. -/
theorem agree_invoke (hm : p.Machines m n) (hname : p.Pairs x y)
    (habove : p.terms.Above (m.stack.size - (count.toNat + 1))) :
    Agree p Any (invoke x count m) (invoke y count n) := by
  refine agree_peek hm habove fun v w hvw => ?_
  refine agree_readHeap (hm.heaps.instance? hvw) fun i j _ _ hij => ?_
  cases hij with
  | none => exact agree_raiseNotAnInstance hm hvw
  | @some i j hij =>
    obtain ⟨-, -, -, hobject⟩ := hij
    cases hobject with
    | instance_ class_ fields =>
      refine agree_readHeap (hm.heaps.key hname) fun a b _ _ hkey => ?_
      have hfield := fields.get? hkey
      generalize i.2.fields.get? a = c at hfield
      generalize j.2.fields.get? b = d at hfield
      cases hfield with
      | some hfield =>
        refine agree_slotAt hm fun slot _ => ?_
        exact (agree_writeSlot hm hfield).afterLevel fun _ _ _ _ hm' hsize =>
          agree_callValue hm' hfield (hsize ▸ habove)
      | none => exact agree_invokeFromClass hm class_ hname habove

/-- The same method of paired classes is bound. -/
theorem agree_bindMethod (hm : p.Machines m n) (hxy : p.Pairs x y) (hname : p.Pairs x' y')
    (habove : p.terms.Above (m.stack.size - 1)) :
    Agree p Any (bindMethod x x' m) (bindMethod y y' n) :=
  agree_findMethod hm hxy hname fun v w hvw => by
    cases hvw with
    | none => exact agree_raiseUndefinedProperty hm hname
    | some hvw =>
      refine agree_peek hm habove fun a b hreceiver => ?_
      refine agree_handleOf hvw fun z z' _ _ hmethod => ?_
      have hobject : p.Objects (.boundMethod ⟨a, z⟩) (.boundMethod ⟨b, z'⟩) :=
        .boundMethod hreceiver hmethod
      refine (agree_alloc hm hobject nofun nofun).bind fun q r r' m₁ n₁ _ hm₁ hg => ?_
      exact agree_drop hm₁ fun _ _ hm₂ => (agree_push hm₂ (.reference hg.pair)).any

end Exec

end ScriptMachine
