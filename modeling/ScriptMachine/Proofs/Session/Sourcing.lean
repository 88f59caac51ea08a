import ScriptMachine.Proofs.Session.Stepping

/-!
# Closures and classes from step to step

A new closure has the code of the function that its words say, and captures no callee unless its
captures lead to one. A class gets what the superclass has, or the closure made right before, which
is compiled as an initializer if it has the name of one. So every step keeps that all closures have
the code of a body and that all classes have initializers as their initializers.
-/

namespace ScriptMachine

open Compile (FunctionKind)

/-- The instructions of a class declaration call nothing and assign no variable. -/
theorem Instr.Declares.plain {i : Instr} (h : i.Declares) :
    i.arguments? = none ∧ (∀ s, i ≠ .setLocal s) ∧ ∀ j, i ≠ .setUpvalue j := by
  cases h with
  | get access => cases access <;> simp [Compile.Access.get, Instr.arguments?]
  | _ => simp [Instr.arguments?]

/-- A key is for the name that it was made of. -/
theorem Heap.string_of_key {h : Heap} {name : Handle} {key : Key} (hkey : h.key name = .ok key) :
    key.string = name := by
  obtain ⟨s, -, hpure⟩ := exists_of_bind_eq_ok hkey
  rw [← Except.ok.inj hpure]

namespace Machine

variable {m m' : Machine} {g : Frame} {rest : List Frame} {p : Part} {ps : List Part} {n : Nat}
  {done left : Atoms} {i : Instr} {k : UInt16} {r : Handle} {c : Closure} {a : Activation}

/-! ### New closures -/

/-- What is kept alive and the same lasts. -/
theorem lasts_of_kept {x : Handle} (hx : m.Keeps x)
    (hsame : ∀ y, m.Keeps y → m'.heap.object? y = m.heap.object? y) :
    m.heap.Lasts m'.heap x :=
  fun y o hy ho => ⟨o, (hsame y (hy.reachable hx)).trans ho, .refl o⟩

namespace Works

/-- A step at a closure makes one of the innermost function. -/
theorem closed (hw : m.Works g rest p ps n done) (hm : m.Ready) (hi : m.next? = some (.closure k))
    (hstep : Exec.step m = .ok .running m') : ∃ a r c, m.Closed a k m' r c ∧ a.frame = g ∧
      m.heap.object? g.closure = some (.closure a.closure) ∧ m.Keeps a.closure.function ∧
      (∀ u ∈ a.closure.upvalues, m.Keeps u) ∧
      ∀ f, m.Hosts g.closure p f → a.layout.words = p.row.words := by
  obtain ⟨W, O, hshows, hpoised⟩ := hm
  cases hpoised with
  | @intro a others below A outer base lands =>
    obtain ⟨r, c, hclosed⟩ := hshows.closed base lands hi hstep
    obtain rfl : a.frame = g := Option.some.inj ((hshows.back_frames rfl).symm.trans hw.back)
    have hruns := hshows.runs a List.mem_cons_self
    refine ⟨a, r, c, hclosed, rfl, hruns.closure, hshows.keeps_function List.mem_cons_self,
      fun u hu => hshows.keeps_upvalue List.mem_cons_self hu, fun f hosts => ?_⟩
    obtain ⟨c', hc', hserves⟩ := hosts.closure
    obtain rfl := Object.closure.inj (Option.some.inj (hc'.symm.trans hruns.closure))
    obtain rfl := Object.function.inj
      (Option.some.inj (hserves.embodies.function.symm.trans hruns.function))
    rw [hruns.words, hosts.words]

/-- The new closure has the code of the body inside, and the machine goes on behind its words with
everything that it keeps alive as it was. -/
theorem serves {kind : FunctionKind} {r' : Handle} {captures : List Capture} {B : Body}
    {f' : Prototype} (hw : m.Works g rest p ps n done)
    (hi : m.next? = some (.closure k)) (hm : m.Ready) (hstep : Exec.step m = .ok .running m')
    (hnests : p.body.Nests kind k r' captures B f')
    (hwords : captures.map Capture.encode <+: p.row.words.drop (g.ip + 1)) :
    ∃ r c, m.Retains [r] m' ∧ m'.heap.object? r = some (.closure c) ∧
      (∀ x, m.Keeps x → x ≠ r) ∧ m'.stack = m.stack.push (.ofHandle r) ∧
      m'.frames = m.frames.pop.push { g with ip := g.ip + (1 + captures.length) } ∧
      m'.Serves c B f' ∧ c.function = r' ∧
      (∀ x, m.Keeps x → m'.heap.object? x = m.heap.object? x) ∧
      p.body.heap.Lasts m'.heap r' := by
  obtain ⟨a, r, c, hclosed, rfl, hclosure, hkeeps, hupvalues, hlayout⟩ := hw.closed hm hi hstep
  obtain ⟨f, hosts, hchunk⟩ := hw.plays
  obtain ⟨c₀, hc₀, hserves⟩ := hosts.closure
  obtain rfl : c₀ = a.closure := Object.closure.inj (Option.some.inj (hc₀.symm.trans hclosure))
  -- the function of the new closure is the one that the body has inside
  have hfunction : c.function = r' := by
    obtain ⟨v, hv, hat⟩ := hclosed.constant
    have hconstant := hnests.constant
    rw [hserves.embodies.constants, Array.getElem?_toList, ← hchunk, hv, Option.some.injEq]
      at hconstant
    rw [hconstant, Value.toHandle?_ofHandle] at hat
    exact (Option.some.inj hat).symm
  have hstores : (Object.function f).Stores r' := by
    have hconstant := hnests.constant
    rw [hserves.embodies.constants, Array.getElem?_toList] at hconstant
    exact .functionConstant (Array.mem_of_getElem? hconstant) (Value.toHandle?_ofHandle r')
  have hkept : m.Keeps r' := hkeeps.step hserves.embodies.function hstores
  have hlasts : p.body.heap.Lasts m.heap r' :=
    hserves.embodies.lasts.stored hserves.embodies.object rfl hstores
  have hembodies := hnests.embodies m.heap hlasts
  have hlasts' := hlasts.trans (lasts_of_kept hkept hclosed.objects)
  obtain ⟨cs, hcs, hcount, hframes, htakes⟩ := hclosed.takes
  obtain rfl : cs = captures := by
    rw [hlayout f hosts] at hcs
    have hlength : cs.length = captures.length :=
      (hcount f' (hfunction ▸ hembodies.function)).symm.trans hnests.count
    exact List.map_injective_iff.mpr (Function.LeftInverse.injective Capture.decode_encode)
      (List.IsPrefix.eq_of_length (List.prefix_of_prefix_length_le hcs hwords (by simp [hlength]))
        (by simp [hlength]))
  have htaken {j : Nat} {u : Handle} (hj : c.upvalues[j]? = some u) :
      ∃ capture, cs[j]? = some capture ∧ m'.Takes a capture u := by
    rw [← Array.getElem?_toList] at hj
    obtain ⟨hlt, hget⟩ := List.getElem?_eq_some_iff.mp hj
    have htake := (List.forall₂_iff_get.mp htakes).2 j (htakes.length_eq ▸ hlt) hlt
    rw [List.get_eq_getElem, List.get_eq_getElem, hget] at htake
    exact ⟨_, List.getElem?_eq_getElem _, htake⟩
  refine ⟨r, c, hclosed.retains, hclosed.object, hclosed.fresh, hclosed.stack, ?_,
    { embodies := ?_, present := fun u hu => ?_, apart := fun j u hj hno x hx hstands => ?_ },
    hfunction, hclosed.objects, hlasts'⟩
  · rw [hframes, Nat.add_assoc]
    rfl
  · exact hfunction ▸ hnests.embodies m'.heap hlasts'
  · obtain ⟨j, hlt, rfl⟩ := Array.mem_iff_getElem.mp hu
    obtain ⟨capture, -, htake⟩ := htaken (Array.getElem?_eq_getElem hlt)
    unfold Takes at htake
    split at htake
    · exact ⟨_, htake.2⟩
    · have hmem := Array.mem_of_getElem? htake
      obtain ⟨o, ho⟩ := hserves.present _ hmem
      exact ⟨o, (hclosed.objects _ (hupvalues _ hmem)).trans ho⟩
  · obtain ⟨capture, hcapture, htake⟩ := htaken hj
    rw [← hnests.captures] at hcapture
    obtain ⟨y, hy, hbase⟩ : ∃ y ∈ m.frames, y.base = x.base := by
      rw [hframes] at hx
      rcases Array.mem_push.mp hx with hx | rfl
      · exact ⟨x, by rw [Exec.eq_pop_push hw.back]; exact Array.mem_push.mpr (.inl hx), rfl⟩
      · exact ⟨a.frame, hw.mem.mp List.mem_cons_self, rfl⟩
    unfold Takes at htake
    split at htake
    · next hlocal =>
      obtain ⟨isLocal, index⟩ := capture
      obtain rfl : isLocal = true := hlocal
      have hzero : index.toNat = 0 := by
        have heq := htake.2.inj hstands
        have hle := hw.base_le y (hw.mem.mpr hy)
        change a.frame.base + index.toNat = x.base at heq
        omega
      obtain rfl : index = 0 := UInt8.toNat_inj.mp hzero
      exact hno (.here hcapture)
    · next hlocal =>
      obtain ⟨isLocal, index⟩ := capture
      obtain rfl : isLocal = false := Bool.eq_false_iff.mpr hlocal
      obtain ⟨scope, houter⟩ := hnests.outer
      refine hserves.apart index.toNat u htake (fun hleads => hno ?_) y hy ?_
      · rw [houter]
        exact .further hcapture hleads
      · have hmem := Array.mem_of_getElem? htake
        rw [hbase]
        exact (hclosed.objects u (hupvalues u hmem)).symm.trans hstands

end Works

/-! ### Classes -/

/-- The methods of a class that is a root are closures under texts. -/
theorem Shows.tableOk_class {W : World} {O : Outline} {x : Handle} {c : ClassObject}
    (hm : m.Shows W O) (hx : x ∈ m.roots) (hc : m.heap.object? x = some (.class_ c)) :
    W.TableOk .closure c.methods := by
  obtain ⟨t, ht⟩ := hm.knows hm.lists hx
  obtain ⟨o, ho, hd⟩ := hm.fits x t ht
  obtain rfl := Option.some.inj (ho.symm.trans hc)
  cases hd with
  | class_ _ methods => exact methods

/-- A class may get what another one has. -/
theorem InitializesBy.insertAll {W : World} {t s : Table} (ht : W.TableOk .closure t)
    (hs : W.TableOk .closure s) (hit : m.InitializesBy t) (his : m.InitializesBy s) :
    m.InitializesBy (t.insertAll s) := by
  intro k v hmem hk
  obtain ⟨-, -, hmem'⟩ := ht.valid.insertAll ht.hashedBy hs.valid hs.hashedBy
  rcases (hmem' k v).mp hmem with hold | ⟨hown, -⟩
  · exact his k v hold hk
  · exact hit k v hown hk

/-- A class may get a method, which has to be an initializer if it is named like one. -/
theorem InitializesBy.insert {t : Table} {key : Key} {v : Value} (ht : t.Valid)
    (hkey : Table.Agrees t.entries key) (hit : m.InitializesBy t)
    (hv : key.string = m.initName → ∃ y, v = .ofHandle y ∧ m.Initializes y) :
    m.InitializesBy (t.insert key v).2 := by
  intro k w hmem hk
  rcases ((ht.insert hkey v).mem k w).mp hmem with ⟨rfl, rfl⟩ | ⟨hold, -⟩
  · exact hv hk
  · exact hit k w hold hk

/-- `m'` has the closures and the classes of `m` but for `new`, no active function is of these, and
everything is sourced. -/
structure Resourced (m : Machine) (new : List Handle) (m' : Machine) : Prop where
  retains : m.Retains new m'
  apart : ∀ x ∈ m.frames, x.closure ∉ new
  sourced : m'.Sourced

/-- A step may give a class other methods, among which the initializer has to be one. -/
theorem Sourced.reshape {W : World} {O : Outline} {f : Frame} {h : Heap} {c : ClassObject}
    {methods : Table} (hs : m.Sourced) (hm : m.Shows W O) (hback : m.frames.back? = some f)
    (halike : m.heap.Alike h) (hclears : m.Clears m')
    (hr : (m.fetched f h).Reshaped r c methods m')
    (hmethods : (∀ z, m.heap.Lasts m'.heap z) → m'.InitializesBy methods) :
    m.Resourced [r] m' := by
  have hretains := (fetched_preserves hback halike).retains.trans hr.retains
  have hbefore : m.heap.object? r = some (.class_ c) := (halike.object? r).symm.trans hr.before
  have hobject := hr.objects r
  rw [if_pos rfl] at hobject
  have hlasts (z : Handle) : m.heap.Lasts m'.heap z :=
    Heap.Lasts.trans (fun y o _ ho => ⟨o, (halike.object? y).trans ho, .refl o⟩) (hr.lasts z)
  refine ⟨hretains, fun x hx hmem => ?_, hs.carry hretains hclears (fun y c' hy hc' => ?_)
    fun x c' hx hc' => ?_⟩
  · rw [List.mem_singleton] at hmem
    have hframes : x ∈ O.active.map Activation.frame := by
      rw [← hm.frames, List.mem_reverse, Array.mem_toList_iff]
      exact hx
    obtain ⟨a, ha, rfl⟩ := List.mem_map.mp hframes
    have hclosure := (hm.runs a ha).closure
    rw [hmem, hbefore] at hclosure
    cases hclosure
  · obtain rfl := List.mem_singleton.mp hy
    cases hobject.symm.trans hc'
  · obtain rfl := List.mem_singleton.mp hx
    obtain rfl := Object.class_.inj (Option.some.inj (hobject.symm.trans hc'))
    exact hmethods hlasts

/-- A step at an instruction of a class declaration, but for the additions of methods. -/
theorem Sourced.declares (hs : m.Sourced) (hm : m.Ready) (hi : m.next? = some i)
    (hdeclares : i.Declares) (hstep : Exec.step m = .ok .running m') :
    ∃ new, m.Resourced new m' := by
  have hclears := hm.clears_step hstep
  have hplain (hcode : i.shapesCode = false) : ∃ new, m.Resourced new m' := by
    have hr := hm.retains_step hi hcode hstep
    exact ⟨[], hr, fun x _ => by simp, hs.retain hr hclears⟩
  obtain ⟨W, O, hshows, hpoised⟩ := hm
  cases hdeclares with
  | class_ k =>
    cases hpoised with
    | @intro a others below A outer base lands =>
      obtain ⟨r, hclassed⟩ := hshows.classed lands hi hstep
      obtain ⟨name, hobject⟩ := hclassed.object
      refine ⟨[r], hclassed.retains, fun x hx hmem => ?_, hs.carry hclassed.retains hclears
        (fun y c hy hc => ?_) fun x c hx hc => ?_⟩
      · rw [List.mem_singleton] at hmem
        exact hclassed.fresh x.closure (.root (mem_roots.mpr (.inr (.inl ⟨x, hx, rfl⟩)))) hmem
      · obtain rfl := List.mem_singleton.mp hy
        cases hobject.symm.trans hc
      · obtain rfl := List.mem_singleton.mp hx
        obtain rfl := Object.class_.inj (Option.some.inj (hobject.symm.trans hc))
        exact initializesBy_empty
  | inherit =>
    obtain ⟨f, h, hback, halike, hcarried⟩ := Exec.perform_of_step hi (by simp) hstep
    obtain ⟨v, w, x, r, s, c, hv, hx, hw', hr, hsuper, hreshaped⟩ := Exec.inherit_eq_ok hcarried
    have hroot {j : Nat} {v : Value} {x : Handle} (hv : m.stack[j]? = some v)
        (hx : v.toHandle? = some x) : x ∈ m.roots :=
      mem_roots.mpr (.inl ⟨v, Array.mem_of_getElem? hv, hx⟩)
    have hs' : m.heap.object? x = some (.class_ s) := (halike.object? x).symm.trans hsuper
    have hc : m.heap.object? r = some (.class_ c) := (halike.object? r).symm.trans hreshaped.before
    have hinit : m'.initName = m.initName := hreshaped.retains.initName
    refine ⟨[r], hs.reshape hshows hback halike hclears hreshaped fun hlasts => ?_⟩
    exact .insertAll (hshows.tableOk_class (hroot hw' hr) hc) (hshows.tableOk_class (hroot hv hx) hs')
      ((hs.classes r c hc).carry hinit hclears fun z _ => hlasts z)
      ((hs.classes x s hs').carry hinit hclears fun z _ => hlasts z)
  | get access => exact hplain (by cases access <;> rfl)
  | define k | pop => exact hplain rfl

namespace Works

/-- A step that adds the closure on top of the stack to a class. -/
theorem adds {name : String} (hw : m.Works g rest p ps n done) (hm : m.Ready) (hs : m.Sourced)
    (hi : m.next? = some (.method k)) (names : p.body.Names k name)
    (htop : ∃ y c B f, m.stack.back? = some (.ofHandle y) ∧ m.heap.object? y = some (.closure c) ∧
      m.Serves c B f ∧ B.kind = methodKind name)
    (hstep : Exec.step m = .ok .running m') : ∃ new, m.Resourced new m' := by
  have hclears := hm.clears_step hstep
  obtain ⟨W, O, hshows, -⟩ := hm
  obtain ⟨f, h, hback, halike, hcarried⟩ := Exec.perform_of_step hi (by simp) hstep
  obtain ⟨x, key, v, w, r, c, hname, hkey, hv, hw', hr, hreshaped⟩ := Exec.addMethod_eq_ok hcarried
  have hc : m.heap.object? r = some (.class_ c) := (halike.object? r).symm.trans hreshaped.before
  have htable := hshows.tableOk_class (mem_roots.mpr (.inl ⟨w, Array.mem_of_getElem? hw', hr⟩)) hc
  have hinit : m'.initName = m.initName := hreshaped.retains.initName
  have hagrees : Table.Agrees c.methods.entries key :=
    htable.agrees_of_key (hshows.alike halike).fits hkey
  refine ⟨[r], hs.reshape hshows hback halike hclears hreshaped fun hlasts => ?_⟩
  refine .insert htable.valid hagrees
    ((hs.classes r c hc).carry hinit hclears fun z _ => hlasts z) fun hkeyed => ?_
  obtain ⟨y, d, B, e, hy, hd, hserves, hkind⟩ := htop
  obtain rfl : v = .ofHandle y := by
    change m.stack[m.stack.size - 1]? = some v at hv
    exact Option.some.inj (hv.symm.trans hy)
  -- the name of the method is the one of initializers
  have hinitial : name = "init" := by
    rw [Heap.string_of_key hkey, hinit] at hkeyed
    obtain ⟨-, f', v', hf', hconstant, hat⟩ := Exec.constantHandle_found hname
    obtain ⟨f₀, hosts, hchunk⟩ := hw.plays
    obtain ⟨c₀, -, hserves₀⟩ := hosts.closure
    obtain ⟨z, text, hz, hobject, htext⟩ := hserves₀.embodies.text names
    obtain rfl : f = g := Option.some.inj (hback.symm.trans hw.back)
    obtain rfl : { f with ip := f.ip + 1 } = f' :=
      Option.some.inj ((Array.back?_push).symm.trans hf')
    change f.chunk.constants[k.toNat]? = some v' at hconstant
    rw [hchunk, hz, Option.some.injEq] at hconstant
    rw [← hconstant, Value.toHandle?_ofHandle, Option.some.injEq] at hat
    obtain ⟨o, ho, hdescribes⟩ := hshows.fits _ _ hshows.init
    rw [← hkeyed, ← hat, hobject] at ho
    obtain rfl := Option.some.inj ho
    cases hdescribes with
    | text => exact htext.symm
  refine ⟨y, rfl, Initializes.carry ⟨d, B, e, hd, hserves, ?_⟩ hclears (hlasts y)⟩
  rw [hkind, hinitial]
  rfl

/-- The words of a closure make it, and lead behind themselves. -/
theorem makes {height : Nat} {ws : List UInt32} {scope scope' : Scope} {kind : FunctionKind}
    {f : Function} (hw : m.Works g rest p ps n done) (hm : m.Ready) (hi : m.next? = some i)
    (hat : p.row.At p.body g.ip height done (i.encode :: ws) left)
    (codes : f.Codes p.body scope kind (i.encode :: ws) scope') (rooted : scope.Rooted)
    (proper : ProperNames f.tokens) (hstep : Exec.step m = .ok .running m') :
    ∃ r c B f', m.Retains [r] m' ∧ m'.heap.object? r = some (.closure c) ∧
      (∀ x, m.Keeps x → x ≠ r) ∧ m'.stack = m.stack.push (.ofHandle r) ∧
      m'.frames = m.frames.pop.push { g with ip := g.ip + (i.encode :: ws).length } ∧
      m'.Serves c B f' ∧ B.kind = kind := by
  obtain ⟨f, hosts, -⟩ := hw.plays
  obtain ⟨c₀, -, hserves₀⟩ := hosts.closure
  have hahead : ws <+: p.row.words.drop (g.ip + 1) := by
    obtain ⟨tail, htail⟩ := hat.ahead
    refine ⟨tail, ?_⟩
    rw [← List.tail_drop, ← htail]
    rfl
  obtain ⟨k, r', captures, B, f', hwords, hnests⟩ :=
    codes.nests rooted hserves₀.embodies.rooted proper
  obtain ⟨heq, rfl⟩ := List.cons.inj hwords
  obtain rfl := Instr.encode_injective heq
  obtain ⟨r, c, hretains, hobject, hfresh, hstack, hframes, hserves, -⟩ :=
    hw.serves hi hm hstep hnests hahead
  refine ⟨r, c, B, f', hretains, hobject, hfresh, hstack, ?_, hserves, hnests.kind⟩
  rw [hframes, List.length_cons, List.length_map, Nat.add_comm 1]

/-! ### Every step -/

/-- Behind a single instruction of a stretch that is no closure, a receiver may be what was made. -/
theorem made_instr {B : Body} (hclosure : ∀ k, i ≠ .closure k)
    (hreceiver : i = .getLocal 0 → m.stack.back? = m.stack[g.base]?) :
    m.Made g B (done ++ [[i.encode]]) where
  receiver hdone := by
    obtain ⟨-, heq, -⟩ := append_cons_eq_singleton hdone.symm
    exact hreceiver (Instr.encode_injective (List.cons.inj heq).1.symm)
  closure before ws scope kind f scope' hdone codes _ _ := by
    obtain ⟨-, heq⟩ := List.append_inj' hdone rfl
    obtain ⟨k, words, hwords⟩ := codes.exists_closure
    rw [← (List.cons.inj heq).1, List.cons.injEq] at hwords
    exact absurd (Instr.encode_injective hwords.1) (hclosure k)

/-- A step at an atom keeps where closures and classes come from, and leads the innermost function
behind the atom or elsewhere, enters a function or returns. -/
theorem advances {height : Nat} {ws : List UInt32}
    (hw : m.Works g rest p ps (Atoms.climb height done) done) (hm : m.Ready) (hm' : m'.Ready)
    (hs : m.Sourced) (hi : m.next? = some i)
    (hat : p.row.At p.body g.ip height done (i.encode :: ws) left)
    (hstep : Exec.step m = .ok .running m') :
    m'.Sourced ∧ m.Turned p ps (done.behind (i.encode :: ws) left) m' := by
  obtain ⟨o, hip, hnext⟩ := hat.next
  have hclears := hm.clears_step hstep
  have hretain (hcode : i.shapesCode = false) : m'.Sourced :=
    hs.retain (hm.retains_step hi hcode hstep) hclears
  generalize hatom : i.encode :: ws = atom at hnext
  cases hnext with
  | @instr j permits goes =>
    obtain ⟨heq, -⟩ := List.cons.inj hatom
    obtain rfl := Instr.encode_injective heq
    rw [List.flatten_nil, List.length_nil, Nat.add_zero] at hip
    exact ⟨hretain permits.shapesCode, hw.single hm hm' hi hstep permits (hip ▸ goes)⟩
  | answer kind =>
    obtain ⟨heq, -⟩ := List.cons.inj hatom
    obtain rfl := Instr.encode_injective heq
    exact ⟨hretain rfl, hw.returns hm hm' hi hstep fun _ => hw.made.receiver rfl⟩
  | inner inner next =>
    have stands := hat.behind hip (hatom ▸ next)
    rw [Atoms.climb_append, Atoms.climb_cons, Atoms.climb_nil, Atoms.rise_instr] at stands
    -- an instruction of one word leads to the next one
    have honward {new : List Handle} (hone : ws = []) (hstraight : i.isStraight = true)
        (hcall : i.arguments? = none) (hlocal : i ≠ .setLocal 0) (hupvalue : ∀ j, i ≠ .setUpvalue j)
        (hresourced : m.Resourced new m') :
        m'.Sourced ∧ m.Turned p ps (done.behind (i.encode :: ws) left) m' := by
      subst hone
      have hno : i ≠ .return_ := by
        rintro rfl
        cases hstraight
      obtain ⟨f, h, hback, -, hcarried⟩ := Exec.perform_of_step hi hno hstep
      obtain rfl : g = f := Option.some.inj (hw.back.symm.trans hback)
      refine ⟨hresourced.sourced, hw.onward hm hm' hi hcall hno hlocal
        (fun index heq => absurd heq (hupvalue index)) hstep hresourced.retains hresourced.apart
        ((Exec.stays_perform hstraight hcall).ok hcarried) stands fun hcallees => ?_⟩
      cases left with
      | nil => exact made_nil
      | cons =>
        refine made_instr (fun c hc => ?_) fun hget => ?_
        · subst hc
          cases hstraight
        · subst hget
          exact (Exec.getLocal_eq_ok (m := m.fetched g h) Array.back?_push hcarried).trans
            (hcallees g (hw.mem.mp List.mem_cons_self)).symm
    cases inner with
    | @instr j declares =>
      obtain ⟨heq, hone⟩ := List.cons.inj hatom
      obtain rfl := Instr.encode_injective heq
      obtain ⟨hcall, hlocal, hupvalue⟩ := declares.plain
      obtain ⟨new, hresourced⟩ := hs.declares hm hi declares hstep
      exact hone ▸ honward hone declares.isStraight hcall (hlocal 0) hupvalue hresourced
    | @method _ _ f k before v names codes rooted proper behind =>
      obtain ⟨heq, hone⟩ := List.cons.inj hatom
      obtain rfl := Instr.encode_injective heq
      obtain ⟨new, hresourced⟩ := hw.adds hm hs hi names
        (hw.made.closure _ _ _ _ _ _ behind codes rooted proper) hstep
      exact hone ▸ honward hone rfl rfl (by simp) (by simp) hresourced
    | closure codes rooted proper =>
      subst hatom
      have hclosure : ∃ k, i = .closure k := by
        obtain ⟨k, captures, hwords⟩ := codes.exists_closure
        exact ⟨k, Instr.encode_injective (List.cons.inj hwords).1⟩
      obtain ⟨k, rfl⟩ := hclosure
      obtain ⟨r, c, B, f', hretains, hobject, hfresh, hstack, hframes, hserves, -⟩ :=
        hw.makes hm hi hat codes rooted proper hstep
      have hapart (x : Frame) (hx : x ∈ m.frames) : x.closure ∉ [r] := by
        rw [List.mem_singleton]
        exact hfresh x.closure (.root (mem_roots.mpr (.inr (.inl ⟨x, hx, rfl⟩))))
      refine ⟨hs.carry hretains hclears (fun y d hy hd => ?_) (fun x d hx hd => ?_),
        hw.onward hm hm' hi rfl (by simp) (by simp) (by simp) hstep hretains hapart hframes stands
          fun hcallees => ?_⟩
      · obtain rfl := List.mem_singleton.mp hy
        obtain rfl := Object.closure.inj (Option.some.inj (hobject.symm.trans hd))
        exact ⟨B, f', hserves⟩
      · obtain rfl := List.mem_singleton.mp hx
        cases hobject.symm.trans hd
      · cases left with
        | nil => exact made_nil
        | cons =>
          refine ⟨fun hget => ?_, fun before vs scope kind e scope' hbehind codes' rooted' proper' => ?_⟩
          · obtain ⟨-, heq, -⟩ := append_cons_eq_singleton hget.symm
            cases Instr.encode_injective (List.cons.inj heq).1
          · obtain ⟨-, heq⟩ := List.append_inj' hbehind rfl
            obtain ⟨heq, -⟩ := List.cons.inj heq
            subst heq
            -- whatever function the words are read as, the new closure is of that one
            obtain ⟨y, d, B', e', -, hd, -, hpushed, -, hserves', hkind⟩ :=
              hw.makes hm hi hat codes' rooted' proper' hstep
            exact ⟨y, d, B', e', by rw [hpushed, Array.back?_push], hd, hserves', hkind⟩

/-- A step keeps where closures and classes come from, and leads the innermost function to another
place, enters a function or returns. -/
theorem step (hw : m.Works g rest p ps n done) (hm : m.Ready) (hm' : m'.Ready) (hs : m.Sourced)
    (hi : m.next? = some i) (hstep : Exec.step m = .ok .running m') :
    m'.Sourced ∧ ∃ done', m.Turned p ps done' m' := by
  obtain ⟨height, ws, left, rfl, hat⟩ := hw.position hi
  exact (hw.advances hm hm' hs hi hat hstep).imp_right fun hturned => ⟨_, hturned⟩

end Works

end Machine

end ScriptMachine
