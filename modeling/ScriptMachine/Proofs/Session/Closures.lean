import ScriptMachine.Proofs.Machine.Retaining
import ScriptMachine.Proofs.Session.Invoking

/-!
# What a new closure captures

Making a closure keeps everything that the machine keeps alive, object for object. For each capture
the closure gets the upvalue that stands for the local's slot, or the one that the running closure
has.
-/

namespace ScriptMachine

namespace Heap

variable {h : Heap} {r : Handle} {slot : Nat} {rs : List Handle}

/-- An upvalue that is found with a slot stands for it. -/
theorem standsFor_of_openSlot (hr : h.openSlot r = .ok slot) : h.StandsFor r slot := by
  unfold openSlot at hr
  split at hr
  · next hu =>
    rw [← Except.ok.inj hr]
    exact object?_of_upvalue hu
  · cases hr
  · cases hr

/-- What is found for a slot stands for it. -/
theorem standsFor_of_firstOpen? (hr : h.firstOpen? slot rs = .ok (some r)) : h.StandsFor r slot := by
  cases rs with
  | nil => cases hr
  | cons x rest =>
    rw [firstOpen?] at hr
    cases hx : h.openSlot x with
    | error e =>
      rw [hx] at hr
      cases hr
    | ok found =>
      rw [hx] at hr
      have hsome : (if found = slot then some x else none) = some r := Except.ok.inj hr
      split at hsome
      · next heq =>
        rw [← Option.some.inj hsome]
        exact standsFor_of_openSlot (heq ▸ hx)
      · cases hsome

end Heap

namespace Machine

/-- `m'` has the closures and the classes, the stack and the globals of `m`, and everything that `m`
keeps alive is kept alive by `m'` and is what it was, and is not open unless it was. -/
structure Preserves (m m' : Machine) : Prop where
  retains : m.Retains [] m'
  stack : m'.stack = m.stack
  globals : m'.globals = m.globals
  keeps : ∀ x, m.Keeps x → m'.Keeps x
  objects : ∀ x, m.Keeps x → m'.heap.object? x = m.heap.object? x
  listed : ∀ x ∈ m'.openUpvalues, m.Keeps x → x ∈ m.openUpvalues

variable {m m₁ m' : Machine}

/-- Every machine preserves itself. -/
theorem Preserves.refl (m : Machine) : m.Preserves m :=
  ⟨⟨.refl _, rfl⟩, rfl, rfl, fun _ hx => hx, fun _ _ => rfl, fun _ hx _ => hx⟩

/-- Preserving twice is preserving. -/
theorem Preserves.trans (h : m.Preserves m₁) (h' : m₁.Preserves m') : m.Preserves m' where
  retains := h.retains.trans h'.retains
  stack := h'.stack.trans h.stack
  globals := h'.globals.trans h.globals
  keeps x hx := h'.keeps x (h.keeps x hx)
  objects x hx := (h'.objects x (h.keeps x hx)).trans (h.objects x hx)
  listed x hx hk := h.listed x (h'.listed x hx (h.keeps x hk)) hk

/-- `m'` has the new object `o` as `r`, and what `m` keeps alive as it was. -/
structure Adds (m : Machine) (o : Object) (r : Handle) (m' : Machine) : Prop where
  retains : m.Retains (o.entry r) m'
  object : m'.heap.object? r = some o
  fresh : ∀ x, m.Keeps x → x ≠ r
  keeps : ∀ x, m.Keeps x → m'.Keeps x
  objects : ∀ x, m.Keeps x → m'.heap.object? x = m.heap.object? x
  rest : ∃ h, m' = { m with heap := h }

/-- The upvalue that a capture of the function `a` takes. -/
def Takes (m : Machine) (a : Activation) (capture : Capture) (u : Handle) : Prop :=
  if capture.isLocal then m.Keeps u ∧ m.heap.StandsFor u (a.frame.base + capture.index.toNat)
  else a.closure.upvalues[capture.index.toNat]? = some u

/-- Reading a word of code keeps the same objects alive. -/
theorem fetched_preserves {f : Frame} {h : Heap} (hback : m.frames.back? = some f)
    (ha : m.heap.Alike h) : m.Preserves (m.fetched f h) where
  retains := ⟨.of_alike ha, rfl⟩
  stack := rfl
  globals := rfl
  keeps x hx := by
    refine ((Heap.reachable_congr fun y _ => ha.object? y).mpr hx).mono fun y hy => ?_
    have hframes : (∃ g ∈ (m.fetched f h).frames, g.closure = y) ↔
        ∃ g ∈ m.frames, g.closure = y := by
      rw [Exec.eq_pop_push hback]
      simp [fetched]
    rw [mem_roots] at hy ⊢
    exact hy.imp_right (Or.imp_left hframes.mpr)
  objects x _ := ha.object? x
  listed _ hx _ := hx

/-- A capture takes the same upvalue afterwards. -/
theorem Takes.preserve {a : Activation} {capture : Capture} {u : Handle} (h : m.Takes a capture u)
    (hp : m.Preserves m') : m'.Takes a capture u := by
  unfold Takes at h ⊢
  split
  · next hlocal =>
    rw [if_pos hlocal] at h
    exact ⟨hp.keeps u h.1, (hp.objects u h.1).trans h.2⟩
  · next hlocal => rwa [if_neg hlocal] at h

end Machine

namespace Exec

variable {m m' : Machine} {W : World} {O : Outline} {S T own : List Slot} {g : Option String}
  {a : Activation} {rest : List Activation} {r : Handle} {c : Closure}

/-- A result that succeeds is one that an action does. -/
theorem Does.of_ok {α : Type} {x : Exec α} {b : α} {Q : α → Machine → Prop} (h : Does (x m) Q)
    (hdone : x m = .ok b m') : Q b m' := by
  rw [hdone] at h
  exact h

/-- A step at an instruction other than a return carries it out with the next word read. -/
theorem perform_of_step {i : Instr} (hi : m.next? = some i) (hno : i ≠ .return_)
    (hstep : step m = .ok .running m') : ∃ f h, m.frames.back? = some f ∧ m.heap.Alike h ∧
      perform i (m.fetched f h) = .ok () m' := by
  rcases step_cases m with ⟨f, m₁, hfault⟩ | ⟨f, i', h, hback, hi', halike, -, hperform⟩
  · cases hfault.symm.trans hstep
  obtain rfl : i' = i := Option.some.inj (hi'.symm.trans hi)
  obtain ⟨_, m₁, hcarried, hpure⟩ := exists_of_bind_ok ((hperform hno).symm.trans hstep)
  obtain ⟨-, rfl⟩ := EStateM.Result.ok.inj hpure
  exact ⟨f, h, hback, halike, hcarried⟩

/-- A constant that is a reference is one of the running function. -/
theorem constantHandle_found {k : UInt16} (hdone : constantHandle k m = .ok r m') : m' = m ∧
    ∃ f v, m.frames.back? = some f ∧ f.chunk.constants[k.toNat]? = some v ∧
      v.toHandle? = some r := by
  obtain rfl := constantHandle_eq_ok hdone
  obtain ⟨v, m₁, hconstant, hhandle⟩ := exists_of_bind_ok hdone
  obtain ⟨f, m₂, hframe, hrest⟩ := exists_of_bind_ok hconstant
  obtain ⟨rfl, hback⟩ := frame_eq_ok hframe
  obtain ⟨rfl, hv⟩ := handleOf_eq_ok hhandle
  cases hconst : f.chunk.constants[k.toNat]? with
  | some w =>
    rw [hconst] at hrest
    obtain ⟨rfl, -⟩ := EStateM.Result.ok.inj hrest
    exact ⟨rfl, f, _, hback, hconst, hv⟩
  | none =>
    rw [hconst] at hrest
    cases hrest

/-- Making an object that is no text keeps what is kept alive, and the object is another one. -/
theorem alloc_adds {o : Object} {t : ObjectType} (hm : Capturing m W O T) (hd : W.Describes t o)
    (hno : ∀ s, o ≠ .string s) (hdone : alloc o m = .ok r m') : m.Adds o r m' := by
  have hroots (x : Handle) (hx : x ∈ m.roots ++ o.references) : W.Knows x := by
    rcases List.mem_append.mp hx with hx | hx
    · exact hm.typed.knows hm.lists hx
    · exact hd.knows (Object.mem_references.mp hx)
  have hretains := retains_alloc hm.typed.sound.arena hm.typed.sound.unmarked hdone
  obtain ⟨h, hok, rfl⟩ := alloc_eq_ok hdone
  rcases hm.typed.sound.alloc o hno (hm.typed.fits.covers hroots) with
    ⟨r', h', hok', ha, -⟩ | hfull
  · obtain ⟨rfl, rfl⟩ := Prod.mk.inj (Except.ok.inj (hok'.symm.trans hok))
    have hmore {x : Handle} (hx : m.Keeps x) : m.heap.Reachable (m.roots ++ o.references) x :=
      hx.mono fun y hy => List.mem_append_left _ hy
    have hkept (x : Handle) (hx : m.Keeps x) : h'.object? x = m.heap.object? x := ha.kept x (hmore hx)
    exact ⟨hretains, ha.new, fun x hx => ha.fresh x (hmore hx),
      fun x hx => (Heap.reachable_congr hkept).mpr hx, hkept, h', rfl⟩
  · cases hfull.symm.trans hok

/-- Capturing a slot preserves what is on the heap, and gives an upvalue that stands for the
slot. -/
theorem captureSlot_preserves {slot : Nat} (hm : Capturing m W O T)
    (hdone : captureSlot slot m = .ok r m') : m.Preserves m' ∧ m'.heap.StandsFor r slot := by
  obtain ⟨listed, m₁, hlook, hrest⟩ := exists_of_bind_ok hdone
  obtain ⟨rfl, rfl⟩ := EStateM.Result.ok.inj hlook
  obtain ⟨parts, m₂, hsplit, hrest⟩ := exists_of_bind_ok hrest
  obtain ⟨rfl, hparts⟩ := readHeap_eq_ok hsplit
  obtain ⟨js, hrs, hsorted⟩ := hm.lists.ordered
  obtain ⟨upper, lower, heq, hwhole⟩ := Heap.splitOpen_eq slot hrs hsorted []
  obtain rfl := Except.ok.inj (heq.symm.trans hparts)
  obtain ⟨found, m₃, hfirst, hrest⟩ := exists_of_bind_ok hrest
  obtain ⟨rfl, hfound⟩ := readHeap_eq_ok hfirst
  rw [List.append_nil] at hfound hrest
  cases found with
  | some x =>
    obtain ⟨rfl, rfl⟩ := EStateM.Result.ok.inj hrest
    exact ⟨.refl _, Heap.standsFor_of_firstOpen? hfound⟩
  | none =>
    obtain ⟨x, m₄, hmade, hrest⟩ := exists_of_bind_ok hrest
    obtain ⟨_, m₅, hmodify, hrest⟩ := exists_of_bind_ok hrest
    obtain ⟨-, rfl⟩ := EStateM.Result.ok.inj hmodify
    obtain ⟨rfl, rfl⟩ := EStateM.Result.ok.inj hrest
    have hadds := alloc_adds hm (t := .upvalue .any) .openUpvalue (by simp) hmade
    obtain ⟨h, rfl⟩ := hadds.rest
    -- the new upvalue is listed beside those that were
    have hmem (z : Handle) : z ∈ (upper.reverse ++ []).reverseAux (x :: lower) ↔
        z = x ∨ z ∈ m₃.openUpvalues := by
      rw [hwhole.whole]
      simp only [List.append_nil, List.reverseAux_eq, List.reverse_reverse, List.mem_append,
        List.mem_cons]
      tauto
    refine ⟨⟨⟨hadds.retains.heap, rfl⟩, rfl, rfl, fun y hy => ?_, hadds.objects, fun y hy hk => ?_⟩,
      hadds.object⟩
    · refine (hadds.keeps y hy).mono fun z hz => ?_
      rw [Machine.mem_roots] at hz ⊢
      exact hz.imp_right (Or.imp_right (Or.imp_left fun hz => (hmem z).mpr (.inr hz)))
    · exact ((hmem y).mp hy).resolve_left (hadds.fresh y hk)

/-- Capturing all that a closure instruction asks for preserves what is on the heap, and takes one
upvalue for each capture. -/
theorem captures_preserves {cs : List Capture} {contents : List Content} {done rs : Array Handle}
    (hm : Capturing m W ⟨S, g, a :: rest⟩ T) (hown : T.drop a.frame.base = own)
    (hcs : List.Forall₂ (Captures a.context own) cs contents)
    (hwords : cs.map Capture.encode <+: a.layout.words.drop a.frame.ip)
    (hdone : captures cs.length done m = .ok rs m') : m.Preserves m' ∧
      m'.frames = m.frames.pop.push (a.goTo (a.frame.ip + cs.length)).frame ∧
      (∃ V, Capturing m' V ⟨S, g, a.goTo (a.frame.ip + cs.length) :: rest⟩ T) ∧
      ∃ us, rs.toList = done.toList ++ us ∧ List.Forall₂ (m'.Takes a) cs us := by
  generalize hcontext : a.context = Γ at hcs
  induction hcs generalizing a done m W with
  | nil =>
    obtain ⟨rfl, rfl⟩ := EStateM.Result.ok.inj hdone
    exact ⟨.refl _, eq_pop_push (hm.typed.back_frames rfl), ⟨W, hm⟩, [], by simp, .nil⟩
  | @cons capture content cs contents hc hrest ih =>
    obtain ⟨hword, htail⟩ : a.layout.words[a.frame.ip]? = some capture.encode ∧
        cs.map Capture.encode <+: a.layout.words.drop (a.frame.ip + 1) := by
      obtain ⟨tail, htail⟩ := hwords
      rw [List.map_cons, List.cons_append] at htail
      refine ⟨?_, tail, ?_⟩
      · rw [← List.head?_drop, ← htail]
        rfl
      · rw [← List.tail_drop, ← htail]
        rfl
    obtain ⟨w, m₁, hfetch, hdone⟩ := exists_of_bind_ok hdone
    obtain ⟨rfl, htyped, halike⟩ := (does_fetch_typed hm.typed hword).of_ok hfetch
    obtain ⟨f, hback, -, hm₁⟩ := fetch_eq_ok hfetch
    have hfetched : m.Preserves m₁ := hm₁ ▸ Machine.fetched_preserves hback (.refl _)
    obtain rfl : a.frame = f := Option.some.inj ((hm.typed.back_frames rfl).symm.trans hback)
    have hcapturing : Capturing m₁ W ⟨S, g, a.goTo (a.frame.ip + 1) :: rest⟩ T :=
      ⟨htyped, by rw [halike.heap, halike.openUpvalues]; exact hm.lists⟩
    rw [Capture.decode_encode] at hdone
    -- with the upvalue of this capture taken, the others follow
    have hnext {u : Handle} {m₂ : Machine} (hp : m₁.Preserves m₂) (hframes : m₂.frames = m₁.frames)
        (hm₂ : ∃ V, Capturing m₂ V ⟨S, g, a.goTo (a.frame.ip + 1) :: rest⟩ T)
        (ht : m₂.Takes a capture u) (hdone : captures cs.length (done.push u) m₂ = .ok rs m') :
        m.Preserves m' ∧
          m'.frames = m.frames.pop.push (a.goTo (a.frame.ip + (capture :: cs).length)).frame ∧
          (∃ V, Capturing m' V ⟨S, g, a.goTo (a.frame.ip + (capture :: cs).length) :: rest⟩ T) ∧
          ∃ us, rs.toList = done.toList ++ us ∧ List.Forall₂ (m'.Takes a) (capture :: cs) us := by
      obtain ⟨V, hm₂⟩ := hm₂
      obtain ⟨hp', hframes', hm', us, hus, htakes⟩ :=
        ih (a := a.goTo (a.frame.ip + 1)) hm₂ hown htail hdone hcontext
      have hip : a.frame.ip + (capture :: cs).length = a.frame.ip + 1 + cs.length := by
        rw [List.length_cons]
        omega
      rw [hip]
      refine ⟨(hfetched.trans hp).trans hp', ?_, hm', u :: us, ?_, .cons (ht.preserve hp') htakes⟩
      · rw [hframes', hframes, hm₁, Machine.fetched, Array.pop_push]
        rfl
      · rw [hus, Array.toList_push, List.append_assoc]
        rfl
    cases hc with
    | @slot j _ slot =>
      rw [if_pos rfl] at hdone
      obtain ⟨f, m₂, hframe, hdone⟩ := exists_of_bind_ok hdone
      obtain ⟨rfl, hf⟩ := frame_eq_ok hframe
      obtain rfl : (a.goTo (a.frame.ip + 1)).frame = f :=
        Option.some.inj ((htyped.back_frames rfl).symm.trans hf)
      obtain ⟨u, m₃, htaken, hdone⟩ := exists_of_bind_ok hdone
      have hslot : T[a.frame.base + j.toNat]? = some ⟨content, true⟩ := by
        rw [← hown, List.getElem?_drop] at slot
        exact slot
      obtain ⟨V, hm₃, -, hkeeps, -⟩ := (does_captureSlot hcapturing hslot).of_ok htaken
      obtain ⟨hp, hstands⟩ := captureSlot_preserves hcapturing htaken
      refine hnext hp ((steady_captureSlot _).ok htaken).frames ⟨V, hm₃⟩ ?_ hdone
      rw [Machine.Takes, if_pos rfl]
      exact ⟨hkeeps, hstands⟩
    | @variable_ j _ variable_ =>
      rw [if_neg Bool.false_ne_true] at hdone
      obtain ⟨u, m₂, hfound, hothers⟩ := exists_of_bind_ok hdone
      obtain ⟨rfl, f, c, hf, hclosure, hget⟩ := frameUpvalue_eq_ok hfound
      obtain rfl : (a.goTo (a.frame.ip + 1)).frame = f :=
        Option.some.inj ((htyped.back_frames rfl).symm.trans hf)
      refine hnext (.refl _) rfl ⟨W, hcapturing⟩ ?_ hothers
      rw [Machine.Takes, if_neg Bool.false_ne_true]
      have hruns := (htyped.runs _ List.mem_cons_self).closure
      obtain rfl := Object.closure.inj (Option.some.inj (hruns.symm.trans hclosure))
      exact hget

end Exec

namespace Machine

variable {m m' : Machine} {W : World} {S : List Slot} {known : Option String} {a : Activation}
  {rest : List Activation} {h : Heap}

/-- The innermost frame may be replaced. -/
theorem reverse_pop_push (fs : Array Frame) (f : Frame) :
    (fs.pop.push f).toList.reverse = f :: fs.toList.reverse.tail := by
  rw [Array.toList_push, Array.toList_pop, List.reverse_append, List.tail_reverse]
  rfl

/-- What a machine shows with the next word read. -/
theorem Shows.fetched (hm : m.Shows W ⟨S, known, a :: rest⟩) (ha : m.heap.Alike h) :
    (m.fetched a.frame h).Shows W ⟨S, known, a.goTo (a.frame.ip + 1) :: rest⟩ := by
  have hframes : (m.frames.pop.push { a.frame with ip := a.frame.ip + 1 }).toList.reverse =
      (a.goTo (a.frame.ip + 1) :: rest).map Activation.frame := by
    rw [reverse_pop_push, hm.frames]
    rfl
  refine (hm.alike ha).reframe hframes (List.forall_mem_cons.mpr ⟨?_, fun b hb => ?_⟩)
  · exact ((hm.alike ha).runs a List.mem_cons_self).goTo _
  · exact (hm.alike ha).runs b (List.mem_cons_of_mem _ hb)

/-- Reading a word of code shows no other objects. -/
theorem Ready.shows_fetched {g : Frame} {heap : Heap} (hm : m.Ready) (hback : m.frames.back? = some g)
    (halike : m.heap.Alike heap) :
    ∃ W O O', m.Shows W O ∧ (m.fetched g heap).Shows W O' := by
  obtain ⟨W, O, hshows, hpoised⟩ := hm
  cases hpoised with
  | @intro a others below A outer base lands =>
    obtain rfl : a.frame = g := Option.some.inj ((hshows.back_frames rfl).symm.trans hback)
    exact ⟨W, _, _, hshows, hshows.fetched halike⟩

/-- What making a closure of the function that the constant `k` is comes to, if the innermost
function `a` is at the instruction. -/
structure Closed (m : Machine) (a : Activation) (k : UInt16) (m' : Machine) (r : Handle)
    (c : Closure) : Prop where
  constant : ∃ v, a.frame.chunk.constants[k.toNat]? = some v ∧ v.toHandle? = some c.function
  retains : m.Retains [r] m'
  object : m'.heap.object? r = some (.closure c)
  fresh : ∀ x, m.Keeps x → x ≠ r
  objects : ∀ x, m.Keeps x → m'.heap.object? x = m.heap.object? x
  stack : m'.stack = m.stack.push (.ofHandle r)
  globals : m'.globals = m.globals
  listed : ∀ x ∈ m'.openUpvalues, m.Keeps x → x ∈ m.openUpvalues
  takes : ∃ cs : List Capture, cs.map Capture.encode <+: a.layout.words.drop (a.frame.ip + 1) ∧
    (∀ f, m.heap.object? c.function = some (.function f) → f.upvalueCount = cs.length) ∧
    m'.frames = m.frames.pop.push (a.goTo (a.frame.ip + 1 + cs.length)).frame ∧
    List.Forall₂ (m'.Takes a) cs c.upvalues.toList

/-- A step at the instruction makes the closure. -/
theorem Shows.closed {below : List Slot} {A : Shape} {k : UInt16}
    (hm : m.Shows W ⟨below ++ A.slots, A.known, a :: rest⟩) (hbase : a.frame.base = below.length)
    (hlands : a.layout.Lands none a.frame.ip A) (hi : m.next? = some (.closure k))
    (hstep : Exec.step m = .ok .running m') : ∃ r c, m.Closed a k m' r c := by
  obtain ⟨f, h, hback, halike, hcarried⟩ := Exec.perform_of_step hi (by simp) hstep
  obtain rfl : a.frame = f := Option.some.inj ((hm.back_frames rfl).symm.trans hback)
  have hfetched := hm.fetched halike
  have hpreserves := fetched_preserves hback halike
  obtain ⟨function, m₂, hconstant, hdone⟩ := Exec.exists_of_bind_ok hcarried
  obtain ⟨rfl, g, v, hg, hv, hfunction⟩ := Exec.constantHandle_found hconstant
  obtain rfl : (a.goTo (a.frame.ip + 1)).frame = g :=
    Option.some.inj ((hfetched.back_frames rfl).symm.trans hg)
  obtain ⟨p, m₃, hread, hdone⟩ := Exec.exists_of_bind_ok hdone
  obtain ⟨rfl, hp⟩ := Exec.readHeap_eq_ok hread
  obtain ⟨upvalues, m₄, hcaptures, hdone⟩ := Exec.exists_of_bind_ok hdone
  obtain ⟨r, m₅, hmade, hpush⟩ := Exec.exists_of_bind_ok hdone
  obtain ⟨-, rfl⟩ := EStateM.Result.ok.inj hpush
  -- what the layout says of the instruction
  obtain ⟨i, E, hword, hfits, hlaid⟩ := Exec.exists_step (hm.runs a List.mem_cons_self) hlands
  obtain rfl : i = .closure k := Option.some.inj ((hm.next?_eq hword).symm.trans hi)
  have hslots : SlotsFit (below ++ A.slots) (below ++ E.slots) := .append (.refl below) hfits.slots
  cases hlaid with
  | effect effect =>
    cases effect with
    | plain plain => cases plain
  | @closure _ cs contents own x known' constant fits captures words next =>
    have hcapturing : Exec.Capturing (m.fetched a.frame h) W
        ⟨below ++ own, A.known, a.goTo (a.frame.ip + 1) :: rest⟩ (below ++ (own ++ [x])) :=
      ⟨(hfetched.weaken hslots).toTyped, (hfetched.weaken hslots).lists.keep
        (by rw [← List.append_assoc]; exact .append _ _)⟩
    obtain ⟨-, htype, hkeeps⟩ := (Exec.does_constantHandle hfetched constant).of_ok hconstant
    have hcount : p.upvalueCount = cs.length := by
      obtain ⟨f, hf, -, hd⟩ := hfetched.fits.prototype htype
      obtain rfl := Except.ok.inj (hf.symm.trans hp)
      cases hd with
      | function _ _ code => exact code.captures.symm.trans captures.length_eq.symm
    rw [hcount] at hcaptures
    have hown : (below ++ (own ++ [x])).drop (a.goTo (a.frame.ip + 1)).frame.base = own ++ [x] := by
      rw [show (a.goTo (a.frame.ip + 1)).frame.base = below.length from hbase, List.drop_left]
    obtain ⟨V, hm₄, hupvalues, hon⟩ := (Exec.does_captures #[] hcapturing rfl hbase (List.drop_left)
      captures words .nil).of_ok hcaptures
    obtain ⟨hp₄, hframes, -, us, hus, htakes⟩ :=
      Exec.captures_preserves hcapturing hown captures words hcaptures
    have hdescribes : V.Describes .closure (.closure ⟨function, upvalues⟩) :=
      .closure (hon function _ hkeeps htype).2 hupvalues
    have hadds := Exec.alloc_adds hm₄ hdescribes (by simp) hmade
    obtain ⟨h', rfl⟩ := hadds.rest
    have hbefore := hpreserves.trans hp₄
    have hfunction' : m.heap.object? function = some (.function p) :=
      (halike.object? function).symm.trans (Heap.object?_of_prototype hp)
    have hon' (y : Handle) (hy : m₄.Keeps y) :
        { m₄ with heap := h', stack := m₄.stack.push (.ofHandle r) }.Keeps y := by
      refine (hadds.keeps y hy).mono fun z hz => ?_
      rw [mem_roots] at hz ⊢
      exact hz.imp_left fun ⟨v, hv, hat⟩ => ⟨v, Array.mem_push_of_mem _ hv, hat⟩
    refine ⟨r, ⟨function, upvalues⟩,
      { constant := ⟨v, hv, hfunction⟩
        retains := ⟨(hbefore.retains.trans hadds.retains).heap, hbefore.retains.initName⟩
        object := hadds.object
        fresh := fun y hy => hadds.fresh y (hbefore.keeps y hy)
        objects := fun y hy => (hadds.objects y (hbefore.keeps y hy)).trans (hbefore.objects y hy)
        stack := congrArg (·.push (.ofHandle r)) hbefore.stack
        globals := hbefore.globals
        listed := hbefore.listed
        takes := ⟨cs, words, fun f hf => ?_, ?_, ?_⟩ }⟩
    · obtain rfl := Object.function.inj (Option.some.inj (hfunction'.symm.trans hf))
      exact hcount
    · show m₄.frames = _
      rw [hframes, Machine.fetched, Array.pop_push]
      rfl
    · rw [hus]
      refine htakes.imp fun capture u ht => ?_
      unfold Takes at ht ⊢
      split
      · next hlocal =>
        rw [if_pos hlocal] at ht
        exact ⟨hon' u ht.1, (hadds.objects u ht.1).trans ht.2⟩
      · next hlocal => rwa [if_neg hlocal] at ht

end Machine

end ScriptMachine
