import ScriptMachine.Proofs.Session.Methods

/-!
# Class declarations at work

From the instruction that makes a class to the end of its declaration, no other function runs and no
variable is assigned, so the class is the one that its variable has, and it is on top of the stack
when it inherits and when a method is added. A stage of a declaration says where the class is and
what is still ahead. Each step leads from one stage to the next, and changes what the class has only
as its instruction says; whatever other class there is stays as it is.
-/

namespace ScriptMachine

open Compile (Access FunctionKind)
open Atoms

namespace Exec

variable {m m' : Machine} {k : UInt16} {a : Access}

/-- Reading a variable puts its value on the stack. -/
theorem get_eq_ok (hdone : perform a.get m = .ok () m') :
    ∃ v, m' = { m with stack := m.stack.push v } := by
  cases a with
  | local_ slot =>
    obtain ⟨f, m₁, hframe, hrest⟩ := exists_of_bind_ok hdone
    obtain ⟨rfl, -⟩ := frame_eq_ok hframe
    obtain ⟨v, m₂, hread, hpush⟩ := exists_of_bind_ok hrest
    obtain ⟨rfl, -⟩ := readSlot_eq_ok hread
    exact ⟨v, (EStateM.Result.ok.inj hpush).2.symm⟩
  | upvalue index =>
    obtain ⟨r, m₁, hfound, hrest⟩ := exists_of_bind_ok hdone
    obtain ⟨rfl, -⟩ := frameUpvalue_eq_ok hfound
    obtain ⟨v, m₂, hread, hpush⟩ := exists_of_bind_ok hrest
    obtain rfl : m₂ = m₁ := by
      obtain ⟨u, m₃, hu, hrest⟩ := exists_of_bind_ok hread
      obtain ⟨rfl, -⟩ := readHeap_eq_ok hu
      cases u with
      | onStack slot => exact (readSlot_eq_ok hrest).1
      | closed v => exact (EStateM.Result.ok.inj hrest).2.symm
    exact ⟨v, (EStateM.Result.ok.inj hpush).2.symm⟩
  | global name =>
    obtain ⟨r, m₁, hname, hkeys⟩ := exists_of_bind_ok hdone
    obtain rfl := constantHandle_eq_ok hname
    obtain ⟨key, m₂, hkey, hlooks⟩ := exists_of_bind_ok hkeys
    obtain ⟨rfl, -⟩ := readHeap_eq_ok hkey
    obtain ⟨found, m₃, hlook, hpush⟩ := exists_of_bind_ok hlooks
    obtain ⟨-, rfl⟩ := EStateM.Result.ok.inj hlook
    cases found with
    | some v => exact ⟨v, (EStateM.Result.ok.inj hpush).2.symm⟩
    | none =>
      obtain ⟨text, m₄, -, hraise⟩ := exists_of_bind_ok hpush
      cases hraise

/-- Defining a global takes its value from the stack. -/
theorem defineGlobal_eq_ok (hdone : defineGlobal k m = .ok () m') : ∃ name key v,
    constantHandle k m = .ok name m ∧ m.heap.key name = .ok key ∧ m.stack.back? = some v ∧
      m.heap.Alike m'.heap ∧ m'.globals = (m.globals.insert key v).2 ∧
      m'.stack = m.stack.pop ∧ m'.frames = m.frames := by
  obtain ⟨name, m₁, hname, hkeys⟩ := exists_of_bind_ok hdone
  obtain rfl := constantHandle_eq_ok hname
  obtain ⟨key, m₂, hread, hpeeks⟩ := exists_of_bind_ok hkeys
  obtain ⟨rfl, hkey⟩ := readHeap_eq_ok hread
  obtain ⟨v, m₃, hpeek, hsets⟩ := exists_of_bind_ok hpeeks
  obtain ⟨rfl, hv⟩ := peek_eq_ok hpeek
  obtain ⟨isNew, m₄, hset, hdrop⟩ := exists_of_bind_ok hsets
  obtain ⟨-, rfl⟩ := EStateM.Result.ok.inj hset
  obtain rfl := drop_eq_ok hdrop
  exact ⟨name, key, v, hname, hkey, hv, ⟨rfl, rfl, rfl, rfl, rfl⟩, rfl, rfl, rfl⟩

end Exec

namespace Machine

variable {settings : Settings} {journal : Journal} {sink : Sink} {m m' : Machine} {g : Frame}
  {rest : List Frame} {p : Part} {ps : List Part} {n t : Nat} {done left : Atoms} {i : Instr}
  {r x y : Handle} {v w : Value} {a a' b : Access} {S : Array Value} {B : Body} {name : String}
  {W : World} {O : Outline}

/-! ### Variables of classes -/

/-- With the slots `S`, the function `g` finds the value where the access leads. -/
def Reads (m : Machine) (g : Frame) (S : Array Value) : Access → Value → Prop
  | .local_ slot, v => S[g.base + slot.toNat]? = some v
  | .upvalue _, _ => False
  | .global k, v => ∃ name key, g.chunk.constants[k.toNat]? = some (.ofHandle name) ∧
      m.heap.key name = .ok key ∧ m.globals.get? key = some v

/-- More slots may be on the stack. -/
theorem Reads.push (h : m.Reads g S a v) : m.Reads g (S.push w) a v := by
  cases a with
  | local_ slot =>
    change S[g.base + slot.toNat]? = some v at h
    show (S.push w)[g.base + slot.toNat]? = some v
    obtain ⟨hlt, -⟩ := Array.getElem?_eq_some_iff.mp h
    rw [Array.getElem?_push, if_neg (by omega), h]
  | upvalue => cases h
  | global => exact h

/-- The machine may change where the globals and the texts stay. -/
theorem Reads.carry {g' : Frame} (h : m.Reads g S a v) (hglobals : m'.globals = m.globals)
    (htexts : ∀ x s, m.heap.object? x = some (.string s) → m'.heap.object? x = some (.string s))
    (hbase : g'.base = g.base) (hchunk : g'.chunk = g.chunk) : m'.Reads g' S a v := by
  cases a with
  | local_ slot =>
    show S[g'.base + slot.toNat]? = some v
    rw [hbase]
    exact h
  | upvalue => cases h
  | global k =>
    obtain ⟨name, key, hname, hkey, hget⟩ := h
    refine ⟨name, key, hchunk ▸ hname, ?_, hglobals ▸ hget⟩
    obtain ⟨s, hs, hpure⟩ := exists_of_bind_eq_ok hkey
    have hobject := htexts name s (Heap.object?_of_string hs)
    rw [← hpure, Heap.key, Heap.string, Heap.object, hobject]
    rfl

/-- What a variable has is kept alive. -/
theorem Reads.keeps (h : m.Reads g S a (.ofHandle r)) (hm : m.Shows W O)
    (hS : ∀ v ∈ S, v ∈ m.stack) : m.Keeps r := by
  have hr : (Value.ofHandle r).toHandle? = some r := Value.toHandle?_ofHandle r
  cases a with
  | local_ slot =>
    exact .root (mem_roots.mpr (.inl ⟨_, hS _ (Array.mem_of_getElem? h), hr⟩))
  | upvalue => cases h
  | global k =>
    obtain ⟨name, key, -, hkey, hget⟩ := h
    obtain ⟨k, hmem, -⟩ := (hm.globals.valid.get?_eq_some_iff
      (hm.globals.agrees_of_key hm.fits hkey)).mp hget
    exact .root (mem_roots.mpr (.inr (.inr (.inr (.inl (.value hmem hr))))))

/-- Reading a variable puts what is found for it on the stack. -/
theorem Reads.get (h : m.Reads g m.stack a v) (hback : m.frames.back? = some g)
    (hdone : Exec.perform a.get m = .ok () m') : m' = { m with stack := m.stack.push v } := by
  obtain ⟨w, rfl⟩ := Exec.get_eq_ok hdone
  congr 2
  cases a with
  | local_ slot =>
    have hread := Exec.getLocal_eq_ok hback hdone
    rw [Array.back?_push, UInt8.toNat_toUInt16] at hread
    exact Option.some.inj (hread.trans h)
  | upvalue => cases h
  | global k =>
    obtain ⟨name, key, hname, hkey, hget⟩ := h
    obtain ⟨name', m₁, hconstant, hkeys⟩ := Exec.exists_of_bind_ok hdone
    obtain ⟨rfl, g', v', hg', hv', hat⟩ := Exec.constantHandle_found hconstant
    obtain rfl : g = g' := Option.some.inj (hback.symm.trans hg')
    rw [hname, Option.some.injEq] at hv'
    rw [← hv', Value.toHandle?_ofHandle, Option.some.injEq] at hat
    subst hat
    obtain ⟨key', m₂, hread, hlooks⟩ := Exec.exists_of_bind_ok hkeys
    obtain ⟨rfl, hkey'⟩ := Exec.readHeap_eq_ok hread
    obtain rfl : key' = key := Except.ok.inj (hkey'.symm.trans hkey)
    obtain ⟨found, m₃, hlook, hpush⟩ := Exec.exists_of_bind_ok hlooks
    obtain ⟨hfound, rfl⟩ := EStateM.Result.ok.inj hlook
    obtain rfl : found = some v := hfound.symm.trans hget
    have hstack := congrArg Machine.stack (EStateM.Result.ok.inj hpush).2
    change m₂.stack.push v = m₂.stack.push w at hstack
    have hback := congrArg Array.back? hstack
    rw [Array.back?_push, Array.back?_push] at hback
    exact (Option.some.inj hback).symm

/-! ### Positions in a declaration -/

/-- The innermost function is in a stretch that was entered with `n` slots, between the atoms `done`
and the atoms `left`. -/
structure Midst (m : Machine) (g : Frame) (rest : List Frame) (p : Part) (ps : List Part) (n : Nat)
    (done left : Atoms) : Prop where
  works : m.Works g rest p ps (climb n done) done
  split : ∃ before after, p.row = before ++ (n, done ++ left) :: after ∧
    g.ip = before.words.length + done.flatten.length

namespace Midst

variable {ws : List UInt32}

/-- The function is at the first of the atoms that are left. -/
theorem position (h : m.Midst g rest p ps n done (ws :: left)) : p.row.At p.body g.ip n done ws left := by
  obtain ⟨f, hosts, -⟩ := h.works.plays
  obtain ⟨before, after, split, offset⟩ := h.split
  exact Row.at_of_split hosts.laid split offset

/-- The machine is at the instruction that this atom starts with. -/
theorem next? (h : m.Midst g rest p ps n done ((i.encode :: ws) :: left)) : m.next? = some i := by
  obtain ⟨f, hosts, hchunk⟩ := h.works.plays
  have hword := h.position.word
  rw [hosts.words, Array.getElem?_toList, ← hchunk] at hword
  rw [Machine.next?, h.works.back, Option.bind_some, hword, Option.bind_some, Instr.decode?_encode]

/-- A step that calls nothing leads behind the atom. -/
theorem behind (h : m.Midst g rest p ps n done ((i.encode :: ws) :: left)) (hm : m.Ready)
    (hm' : m'.Ready) (hs : m.Sourced) (hcall : i.arguments? = none) (hno : i ≠ .return_)
    (hstep : Exec.step m = .ok .running m')
    (hframes : m'.frames = m.frames.pop.push { g with ip := g.ip + (i.encode :: ws).length }) :
    m'.Works { g with ip := g.ip + (i.encode :: ws).length } rest p ps
        (climb n (done ++ [i.encode :: ws])) (done.behind (i.encode :: ws) left) ∧
      (left ≠ [] → m'.Midst { g with ip := g.ip + (i.encode :: ws).length } rest p ps n
        (done ++ [i.encode :: ws]) left) := by
  have hi := h.next?
  have hw := h.works
  obtain ⟨-, hturned⟩ := hw.advances hm hm' hs hi h.position hstep
  have hsame := congrArg Array.size (Exec.eq_pop_push hw.back)
  have hsize : m'.frames.size = m.frames.size := by
    rw [hframes, Array.size_push, hsame, Array.size_push]
  have hworks : m'.Works { g with ip := g.ip + (i.encode :: ws).length } rest p ps
      (climb n (done ++ [i.encode :: ws])) (done.behind (i.encode :: ws) left) := by
    cases hturned with
    | entered size => omega
    | returned size => omega
    | on _ sits =>
      generalize hbehind : done.behind (i.encode :: ws) left = done' at sits ⊢
      cases sits with
      | @intro g' rest' _ _ k' _ works =>
        have hreversed := works.frames
        rw [hframes, hw.replaced] at hreversed
        obtain ⟨rfl, rfl⟩ := List.cons.inj hreversed
        -- the stack is as high as the instruction makes it
        obtain ⟨f, hf, hdeep, hdepth⟩ := hm.depth hi
        obtain rfl : g = f := Option.some.inj (hw.back.symm.trans hf)
        obtain ⟨f, heap, hback, -, hcarried⟩ := Exec.perform_of_step hi hno hstep
        have hperformed : m'.stack.size = m.stack.size - i.operands + i.results :=
          Exec.size_perform (m := m.fetched f heap) hcall hno (Nat.le_of_add_left_le hdeep) hcarried
        have hheight := hw.height
        have hheight' := works.height
        change m'.stack.size = g.base + k' at hheight'
        have hk : k' = climb n (done ++ [i.encode :: ws]) := by
          rw [climb_append, climb_cons, climb_nil, rise_instr]
          have hlow := hw.low
          by_cases hpos : 0 < i.operands
          · have := hdepth hpos
            omega
          · omega
        exact hk ▸ works
  refine ⟨hworks, fun hleft => ?_⟩
  obtain ⟨l, ls, rfl⟩ := List.exists_cons_of_ne_nil hleft
  obtain ⟨before, after, split, offset⟩ := h.split
  refine ⟨hworks, before, after, by simpa using split, ?_⟩
  show g.ip + _ = _
  rw [offset, List.flatten_append, List.length_append, List.flatten_singleton, Nat.add_assoc]

end Midst

/-! ### Stages of a declaration -/

/-- How far the declaration of the class `r` has come, which is under `name` and was made with `n`
slots below: whether it is still to inherit, which closure is to be added next, and which methods
there still are. -/
inductive Stage (m : Machine) (g : Frame) (B : Body) (n : Nat) (name : String) (r : Handle) :
    Option String → Option Handle → List Function → Atoms → Prop
  | made {scope scope₁ scope₂ : Scope} {parent : Option String} {methods : List Function}
      {S : Array Value} {k : UInt16} {a : Access} {inherit : List Instr} {atoms : Atoms}
      (own : B.ClassVariable n name [.defineGlobal k] a)
      (inherits : B.Inheriting scope n name [.defineGlobal k] parent inherit)
      (codes : B.Methods scope₁ methods atoms scope₂) (proper : ProperNames (Function.listTokens methods))
      (stack : m.stack = S.push (.ofHandle r)) : Stage m g B n name r parent none methods
        ([(Instr.defineGlobal k).encode] :: Instr.atoms (inherit ++ [a.get]) ++ atoms ++
          Instr.atoms [.pop])
  | kept {scope scope₁ scope₂ : Scope} {parent : Option String} {methods : List Function}
      {a : Access} {define inherit : List Instr} {atoms : Atoms}
      (own : B.ClassVariable n name define a)
      (inherits : B.Inheriting scope n name define parent inherit)
      (codes : B.Methods scope₁ methods atoms scope₂) (proper : ProperNames (Function.listTokens methods))
      (reads : ∀ b, B.ClassVariable n name define b → m.Reads g m.stack b (.ofHandle r)) :
      Stage m g B n name r parent none methods
        (Instr.atoms (inherit ++ [a.get]) ++ atoms ++ Instr.atoms [.pop])
  | beside {scope₁ scope₂ : Scope} {parent : String} {methods : List Function} {S : Array Value}
      {v : Value} {a b : Access} {define : List Instr} {atoms : Atoms}
      (own : B.ClassVariable n name define a) (again : B.ClassVariable n name define b)
      (codes : B.Methods scope₁ methods atoms scope₂) (proper : ProperNames (Function.listTokens methods))
      (stack : m.stack = S.push v)
      (reads : ∀ b, B.ClassVariable n name define b → m.Reads g S b (.ofHandle r)) :
      Stage m g B n name r (some parent) none methods
        ([b.get.encode] :: [Instr.inherit.encode] :: [a.get.encode] :: atoms ++ Instr.atoms [.pop])
  | above {scope₁ scope₂ : Scope} {parent : String} {methods : List Function} {S : Array Value}
      {v : Value} {a : Access} {define : List Instr} {atoms : Atoms}
      (own : B.ClassVariable n name define a) (codes : B.Methods scope₁ methods atoms scope₂)
      (proper : ProperNames (Function.listTokens methods))
      (stack : m.stack = (S.push v).push (.ofHandle r))
      (reads : ∀ b, B.ClassVariable n name define b → m.Reads g S b (.ofHandle r)) :
      Stage m g B n name r (some parent) none methods
        ([Instr.inherit.encode] :: [a.get.encode] :: atoms ++ Instr.atoms [.pop])
  | adding {scope scope' : Scope} {methods : List Function} {S : Array Value} {atoms : Atoms}
      (codes : B.Methods scope methods atoms scope')
      (proper : ProperNames (Function.listTokens methods)) (stack : m.stack = S.push (.ofHandle r)) :
      Stage m g B n name r none none methods (atoms ++ Instr.atoms [.pop])
  | closed {scope scope' : Scope} {f : Function} {methods : List Function} {S : Array Value}
      {y : Handle} {k : UInt16} {atoms : Atoms} (names : B.Names k f.name)
      (codes : B.Methods scope methods atoms scope')
      (proper : ProperNames (Function.listTokens methods))
      (stack : m.stack = (S.push (.ofHandle r)).push (.ofHandle y)) :
      Stage m g B n name r none (some y) (f :: methods)
        ([(Instr.method k).encode] :: atoms ++ Instr.atoms [.pop])

/-- The class below the one on top of the stack, which is about to inherit from it. -/
def superclass? (m : Machine) : Option Handle :=
  m.stack[m.stack.size - 2]?.bind Value.toHandle?

/-- The closure `y` is one of the function `f` inside of the body: its function is the one that has
the code of `f`. -/
def IsClosureOf (m : Machine) (B : Body) (f : Function) (y : Handle) : Prop :=
  ∃ k x c captures scope scope', f.Codes B scope (methodKind f.name)
      ((Instr.closure k).encode :: captures) scope' ∧
    B.constants[k.toNat]? = some (.ofHandle x) ∧ B.heap.Lasts m.heap x ∧
    m.heap.object? y = some (.closure c) ∧ c.function = x

/-- What a step does in the course of the declaration of the class `r`: it leaves what the class has,
puts what the superclass has before it, makes the closure of the next method or adds that closure
under the name of the method. -/
inductive Builds (m m' : Machine) (B : Body) (r : Handle) :
    Option String → Option Handle → List Function →
      Option String → Option Handle → List Function → Prop
  | goesOn {i : Instr} {parent : Option String} {methods : List Function} (next : m.next? = some i)
      (inherits : i ≠ .inherit) (closes : ∀ k, i ≠ .closure k)
      (same : ∀ name, m'.method? r name = m.method? r name) :
      Builds m m' B r parent none methods parent none methods
  | inherited {x : Handle} {parent : String} {methods : List Function}
      (next : m.next? = some .inherit) (superclass : m.superclass? = some x)
      (found : ∀ name, m'.method? r name = (m.method? x name).or (m.method? r name)) :
      Builds m m' B r (some parent) none methods none none methods
  | closed {k : UInt16} {f : Function} {methods : List Function} {y : Handle}
      (next : m.next? = some (.closure k)) (top : m'.stack.back? = some (.ofHandle y))
      (closure : m'.IsClosureOf B f y) (same : ∀ name, m'.method? r name = m.method? r name) :
      Builds m m' B r none none (f :: methods) none (some y) (f :: methods)
  | added {k : UInt16} {f : Function} {methods : List Function} {y : Handle}
      (next : m.next? = some (.method k)) (found : ∀ name, m'.method? r name =
        if name = f.name then some (.ofHandle y) else m.method? r name) :
      Builds m m' B r none (some y) (f :: methods) none none methods

/-- The innermost function is in the midst of the declaration of the class `r`. -/
structure Declaring (m : Machine) (g : Frame) (rest : List Frame) (p : Part) (ps : List Part)
    (n : Nat) (name : String) (r : Handle) (parent : Option String) (made : Option Handle)
    (methods : List Function) (done left : Atoms) : Prop where
  midst : m.Midst g rest p ps n done left
  stage : m.Stage g p.body n name r parent made methods left
  object : ∃ c, m.heap.object? r = some (.class_ c)

/-- Behind an atom of the declaration the function is at the next one, or the declaration is
complete. -/
inductive Reaches (m : Machine) (g : Frame) (rest : List Frame) (p : Part) (ps : List Part)
    (n : Nat) (name : String) (r : Handle) :
    Option String → Option Handle → List Function → Atoms → Atoms → Prop
  | midst {parent : Option String} {made : Option Handle} {methods : List Function}
      {done left : Atoms}
      (declaring : m.Declaring g rest p ps n name r parent made methods done left) :
      Reaches m g rest p ps n name r parent made methods done left
  | behind {k : Nat} {done : Atoms} (works : m.Works g rest p ps k [])
      (object : ∃ c, m.heap.object? r = some (.class_ c)) :
      Reaches m g rest p ps n name r none none [] done []

/-! ### Steps of a declaration -/

/-- What a class has depends on the objects only. -/
theorem method?_of_alike (halike : m.heap.Alike m'.heap) :
    m'.method? x name = m.method? x name := by
  simp only [method?, Heap.reads, halike.object?]

namespace Midst

/-- A step at an instruction of one word that only takes values and gives some. -/
theorem straight (h : m.Midst g rest p ps n done ([i.encode] :: left)) (hm : m.Ready)
    (hm' : m'.Ready) (hs : m.Sourced) (hstraight : i.isStraight = true) (hcall : i.arguments? = none)
    (hstep : Exec.step m = .ok .running m') : ∃ heap, m.heap.Alike heap ∧
      Exec.perform i (m.fetched g heap) = .ok () m' ∧
      m'.Works { g with ip := g.ip + 1 } rest p ps (climb n (done ++ [[i.encode]]))
        (done.behind [i.encode] left) ∧
      (left ≠ [] → m'.Midst { g with ip := g.ip + 1 } rest p ps n (done ++ [[i.encode]]) left) := by
  have hno : i ≠ .return_ := by
    rintro rfl
    cases hstraight
  obtain ⟨f, heap, hback, halike, hcarried⟩ := Exec.perform_of_step h.next? hno hstep
  obtain rfl : g = f := Option.some.inj (h.works.back.symm.trans hback)
  exact ⟨heap, halike, hcarried, h.behind hm hm' hs hcall hno hstep
    ((Exec.stays_perform hstraight hcall).ok hcarried)⟩

/-- The text that a name of the body is a constant for. -/
theorem text {k : UInt16} (h : m.Midst g rest p ps n done left) (names : p.body.Names k name) :
    ∃ x s, g.chunk.constants[k.toNat]? = some (.ofHandle x) ∧
      m.heap.object? x = some (.string s) ∧ s.chars = name := by
  obtain ⟨f, hosts, hchunk⟩ := h.works.plays
  obtain ⟨c, -, hserves⟩ := hosts.closure
  exact hchunk ▸ hserves.embodies.text names

/-- Whatever the instruction finds as a constant by such a name is the text. -/
theorem string_of_constant {k : UInt16} {heap : Heap} {z : Handle}
    (h : m.Midst g rest p ps n done left) (names : p.body.Names k name)
    (hdone : Exec.constantHandle k (m.fetched g heap) = .ok z m') :
    g.chunk.constants[k.toNat]? = some (.ofHandle z) ∧
      ∃ s, m.heap.object? z = some (.string s) ∧ s.chars = name := by
  obtain ⟨x, s, hx, hs, hchars⟩ := h.text names
  obtain ⟨-, g', v, hg', hv, hat⟩ := Exec.constantHandle_found hdone
  obtain rfl : { g with ip := g.ip + 1 } = g' := Option.some.inj (Array.back?_push.symm.trans hg')
  change g.chunk.constants[k.toNat]? = some v at hv
  rw [hx, Option.some.injEq] at hv
  rw [← hv, Value.toHandle?_ofHandle, Option.some.injEq] at hat
  exact hat ▸ ⟨hx, s, hs, hchars⟩

end Midst

section Steps

variable {parent : Option String} {made : Option Handle} {methods : List Function}
  {scope scope₁ scope₂ : Scope} {k : UInt16} {inherit define : List Instr} {atoms : Atoms}

/-- Where a global is defined for the class, the class is found in it from then on. -/
theorem reads_of_defineGlobal (h : m.Midst g rest p ps n done left) (hm : m.Shows W O)
    (hm' : m'.Ready) {heap : Heap} (halike : m.heap.Alike heap)
    (hstack : m.stack = S.push v) (hdone : Exec.defineGlobal k (m.fetched g heap) = .ok () m')
    {g' : Frame} (hchunk : g'.chunk = g.chunk)
    (hb : p.body.ClassVariable n name [.defineGlobal k] b) : m'.Reads g' m'.stack b v := by
  obtain ⟨z, key, w, hname, hkey, htop, hsame, hglobals, -, -⟩ := Exec.defineGlobal_eq_ok hdone
  obtain rfl : v = w := by
    change m.stack.back? = some w at htop
    rw [hstack, Array.back?_push, Option.some.injEq] at htop
    exact htop
  cases hb with
  | @global _ k' names names' =>
    obtain ⟨-, s, hs, hchars⟩ := h.string_of_constant names hname
    obtain ⟨x, s', hx, hs', hchars'⟩ := h.text names'
    obtain rfl := hm.sound.interning.unique _ _ _ _ hs hs' (hchars.trans hchars'.symm)
    have hheap : m.heap.Alike m'.heap := halike.trans hsame
    obtain ⟨W', O', hm', -⟩ := hm'
    have hkey₀ : m.heap.key z = .ok key := by rw [← halike.key]; exact hkey
    have hkey' : m'.heap.key z = .ok key := by rw [hheap.key]; exact hkey₀
    have hagrees := hm.globals.agrees_of_key hm.fits hkey₀
    refine ⟨z, key, hchunk ▸ hx, hkey', ?_⟩
    refine (hm'.globals.valid.get?_eq_some_iff (hm'.globals.agrees_of_key hm'.fits hkey')).mpr ⟨key, ?_, rfl⟩
    rw [hglobals]
    exact ((hm.globals.valid.insert hagrees v).mem key v).mpr (.inl ⟨rfl, rfl⟩)

/-- What a step at an atom of the declaration comes to: the declaration makes progress, and only the
class itself may not be what it was. -/
inductive Onward (m : Machine) (g : Frame) (rest : List Frame) (p : Part) (ps : List Part) (n : Nat)
    (name : String) (r : Handle) (parent : Option String) (made : Option Handle)
    (methods : List Function) (done : Atoms) (atom : List UInt32) (left : Atoms) (m' : Machine) : Prop
  | intro {parent' : Option String} {made' : Option Handle} {methods' : List Function}
      {new : List Handle} (builds : m.Builds m' p.body r parent made methods parent' made' methods')
      (reaches : m'.Reaches { g with ip := g.ip + atom.length } rest p ps n name r parent' made'
        methods' (done ++ [atom]) left)
      (retains : m.Retains new m') (apart : ∀ x, m.Keeps x → x ≠ r → x ∉ new) :
      Onward m g rest p ps n name r parent made methods done atom left m'

/-- A step that changes no object leaves what the class has. -/
theorem onward_of_alike (hi : m.next? = some i) (hinherit : i ≠ .inherit)
    (hclosure : ∀ k, i ≠ .closure k) (halike : m.heap.Alike m'.heap)
    (hinit : m'.initName = m.initName)
    (hreaches : m'.Reaches { g with ip := g.ip + 1 } rest p ps n name r parent none methods
      (done ++ [[i.encode]]) left) :
    m.Onward g rest p ps n name r parent none methods done [i.encode] left m' := by
  have hretains : m.Retains [] m' := ⟨.of_alike halike, hinit⟩
  exact .intro (.goesOn hi hinherit hclosure fun _ => method?_of_alike halike) hreaches hretains
    fun _ _ _ => List.not_mem_nil

/-- A step that gives the class other methods. -/
theorem onward_of_reshaped {parent' : Option String} {made' : Option Handle}
    {methods' : List Function} {heap : Heap} {c : ClassObject} {table : Table}
    (hback : m.frames.back? = some g) (halike : m.heap.Alike heap)
    (hr : (m.fetched g heap).Reshaped r c table m')
    (hbuilds : m.Builds m' p.body r parent made methods parent' made' methods')
    (hreaches : m'.Reaches { g with ip := g.ip + 1 } rest p ps n name r parent' made' methods'
      (done ++ [[i.encode]]) left) :
    m.Onward g rest p ps n name r parent made methods done [i.encode] left m' :=
  .intro hbuilds hreaches ((fetched_preserves hback halike).retains.trans hr.retains)
    fun x _ hne => by simpa using hne

section Here

variable (hm : m.Ready) (hm' : m'.Ready) (hs : m.Sourced) (hstep : Exec.step m = .ok .running m')
  (hobject : ∃ c, m.heap.object? r = some (.class_ c))

include hm hm' hs hstep hobject

/-- The global of the class is defined. -/
theorem onward_made
    (h : m.Midst g rest p ps n done ([(Instr.defineGlobal k).encode] ::
      (Instr.atoms (inherit ++ [a.get]) ++ atoms ++ Instr.atoms [.pop])))
    (own : p.body.ClassVariable n name [.defineGlobal k] a)
    (inherits : p.body.Inheriting scope n name [.defineGlobal k] parent inherit)
    (codes : p.body.Methods scope₁ methods atoms scope₂)
    (proper : ProperNames (Function.listTokens methods)) (stack : m.stack = S.push (.ofHandle r)) :
    m.Onward g rest p ps n name r parent none methods done [(Instr.defineGlobal k).encode]
      (Instr.atoms (inherit ++ [a.get]) ++ atoms ++ Instr.atoms [.pop]) m' := by
  obtain ⟨heap, halike, hdone, -, hmidst⟩ := h.straight hm hm' hs rfl rfl hstep
  obtain ⟨W, O, hshows, -⟩ := hm
  obtain ⟨z, key, v, -, -, -, hsame, -, -, -⟩ := Exec.defineGlobal_eq_ok hdone
  have hheap : m.heap.Alike m'.heap := halike.trans hsame
  obtain ⟨c, hc⟩ := hobject
  have hinit : m'.initName = m.initName := ((Exec.calm_defineGlobal k).ok hdone).initName
  refine onward_of_alike h.next? (by simp) (by simp) hheap hinit (.midst ⟨hmidst (by simp [Instr.atoms]),
    .kept own inherits codes proper fun b hb => ?_, c, (hheap.object? r).trans hc⟩)
  exact reads_of_defineGlobal h hshows hm' halike stack hdone rfl hb

/-- The variable of the class is read for its methods. -/
theorem onward_kept
    (h : m.Midst g rest p ps n done ([a.get.encode] :: (atoms ++ Instr.atoms [.pop])))
    (codes : p.body.Methods scope₁ methods atoms scope₂)
    (proper : ProperNames (Function.listTokens methods))
    (reads : m.Reads g m.stack a (.ofHandle r)) :
    m.Onward g rest p ps n name r none none methods done [a.get.encode]
      (atoms ++ Instr.atoms [.pop]) m' := by
  have hcall : a.get.arguments? = none := by cases a <;> rfl
  obtain ⟨heap, halike, hdone, -, hmidst⟩ := h.straight hm hm' hs a.get_effect.1 hcall hstep
  have hreads : (m.fetched g heap).Reads { g with ip := g.ip + 1 } m.stack a (.ofHandle r) :=
    reads.carry rfl (fun x s hx => (halike.object? x).trans hx) rfl rfl
  obtain rfl := hreads.get Array.back?_push hdone
  obtain ⟨c, hc⟩ := hobject
  exact onward_of_alike h.next? (by cases a <;> simp [Access.get]) (by cases a <;> simp [Access.get])
    halike rfl (.midst ⟨hmidst (by simp [Instr.atoms]), .adding codes proper rfl, c,
      (halike.object? r).trans hc⟩)

/-- The superclass is read. -/
theorem onward_beside {parent : String}
    (h : m.Midst g rest p ps n done ([a.get.encode] :: [b.get.encode] ::
      [Instr.inherit.encode] :: [a'.get.encode] :: (atoms ++ Instr.atoms [.pop])))
    (own : p.body.ClassVariable n name define a') (again : p.body.ClassVariable n name define b)
    (codes : p.body.Methods scope₁ methods atoms scope₂)
    (proper : ProperNames (Function.listTokens methods))
    (reads : ∀ b, p.body.ClassVariable n name define b → m.Reads g m.stack b (.ofHandle r)) :
    m.Onward g rest p ps n name r (some parent) none methods done [a.get.encode]
      ([b.get.encode] :: [Instr.inherit.encode] :: [a'.get.encode] :: (atoms ++ Instr.atoms [.pop])) m' := by
  have hcall : a.get.arguments? = none := by cases a <;> rfl
  obtain ⟨heap, halike, hdone, -, hmidst⟩ := h.straight hm hm' hs a.get_effect.1 hcall hstep
  obtain ⟨v, rfl⟩ := Exec.get_eq_ok hdone
  obtain ⟨c, hc⟩ := hobject
  exact onward_of_alike h.next? (by cases a <;> simp [Access.get]) (by cases a <;> simp [Access.get])
    halike rfl (.midst ⟨hmidst (by simp), .beside own again codes proper rfl fun b hb =>
      (reads b hb).carry rfl (fun x s hx => (halike.object? x).trans hx) rfl rfl, c,
      (halike.object? r).trans hc⟩)

/-- The variable of the class is read above the superclass. -/
theorem onward_above {parent : String}
    (h : m.Midst g rest p ps n done ([b.get.encode] :: [Instr.inherit.encode] ::
      [a.get.encode] :: (atoms ++ Instr.atoms [.pop])))
    (own : p.body.ClassVariable n name define a) (again : p.body.ClassVariable n name define b)
    (codes : p.body.Methods scope₁ methods atoms scope₂)
    (proper : ProperNames (Function.listTokens methods)) (stack : m.stack = S.push v)
    (reads : ∀ b, p.body.ClassVariable n name define b → m.Reads g S b (.ofHandle r)) :
    m.Onward g rest p ps n name r (some parent) none methods done [b.get.encode]
      ([Instr.inherit.encode] :: [a.get.encode] :: (atoms ++ Instr.atoms [.pop])) m' := by
  have hcall : b.get.arguments? = none := by cases b <;> rfl
  obtain ⟨heap, halike, hdone, -, hmidst⟩ := h.straight hm hm' hs b.get_effect.1 hcall hstep
  have htexts (x : Handle) (s : Interned) (hx : m.heap.object? x = some (.string s)) :
      heap.object? x = some (.string s) := (halike.object? x).trans hx
  have hreads : (m.fetched g heap).Reads { g with ip := g.ip + 1 } m.stack b (.ofHandle r) :=
    stack ▸ (reads b again).push.carry rfl htexts rfl rfl
  obtain rfl := hreads.get Array.back?_push hdone
  obtain ⟨c, hc⟩ := hobject
  exact onward_of_alike h.next? (by cases b <;> simp [Access.get]) (by cases b <;> simp [Access.get])
    halike rfl (.midst ⟨hmidst (by simp), .above own codes proper (congrArg (Array.push · _) stack)
      fun b hb => (reads b hb).carry rfl htexts rfl rfl, c, (halike.object? r).trans hc⟩)

/-- The class inherits. -/
theorem onward_inherited {parent : String}
    (h : m.Midst g rest p ps n done ([Instr.inherit.encode] :: [a.get.encode] ::
      (atoms ++ Instr.atoms [.pop])))
    (own : p.body.ClassVariable n name define a) (codes : p.body.Methods scope₁ methods atoms scope₂)
    (proper : ProperNames (Function.listTokens methods))
    (stack : m.stack = (S.push v).push (.ofHandle r))
    (reads : ∀ b, p.body.ClassVariable n name define b → m.Reads g S b (.ofHandle r)) :
    m.Onward g rest p ps n name r (some parent) none methods done [Instr.inherit.encode]
      ([a.get.encode] :: (atoms ++ Instr.atoms [.pop])) m' := by
  obtain ⟨heap, halike, hdone, -, hmidst⟩ := h.straight hm hm' hs rfl rfl hstep
  obtain ⟨W, O, O', hshows, hfetched⟩ := hm.shows_fetched h.works.back halike
  obtain ⟨u, w, x, r', s, c, hu, hx, hw, hr, hsuper, hreshaped⟩ := Exec.inherit_eq_ok hdone
  change m.stack[m.stack.size - 1 - 1]? = some u at hu
  change m.stack[m.stack.size - 1 - 0]? = some w at hw
  obtain rfl : r = r' := by
    rw [stack, Array.size_push, Nat.sub_zero, Nat.add_sub_cancel, Array.getElem?_push_size,
      Option.some.injEq] at hw
    rw [← hw, Value.toHandle?_ofHandle, Option.some.injEq] at hr
    exact hr
  have hroot {j : Nat} {v : Value} {x : Handle} (hv : m.stack[j]? = some v)
      (hx : v.toHandle? = some x) : m.Keeps x :=
    .root (mem_roots.mpr (.inl ⟨v, Array.mem_of_getElem? hv, hx⟩))
  have hstack' : m'.stack = S.push v := by
    obtain ⟨heap', rfl⟩ := hreshaped.rest
    exact (congrArg Array.pop stack).trans Array.pop_push
  have hreads (b : Access) (hb : p.body.ClassVariable n name define b) :
      m'.Reads { g with ip := g.ip + 1 } m'.stack b (.ofHandle r) := by
    rw [hstack']
    obtain ⟨heap', heq⟩ := hreshaped.rest
    refine (reads b hb).push.carry (by rw [heq]; rfl) (fun y s hy => ?_) rfl rfl
    have hy' : heap.object? y = some (.string s) := (halike.object? y).trans hy
    rw [hreshaped.objects]
    split
    · next heq =>
      subst heq
      cases hreshaped.before.symm.trans hy'
    · exact hy'
  obtain ⟨W', O₁, hshows', -⟩ := hm'
  have hknows' : W'.Knows r :=
    hshows'.knows_of_keeps ((hreads _ own).keeps hshows' fun v hv => hv)
  have hnone : p.body.Inheriting scope₁ n name define none [] := .none
  refine onward_of_reshaped h.works.back halike hreshaped (.inherited h.next? (x := x) ?_ fun name => ?_)
    (.midst ⟨hmidst (by simp), .kept own hnone codes proper hreads, _,
      (hreshaped.objects r).trans (if_pos rfl)⟩)
  · show m.stack[m.stack.size - 2]?.bind Value.toHandle? = some x
    rw [← Nat.sub_sub m.stack.size 1 1, hu]
    exact hx
  · rw [hreshaped.method?_insertAll hfetched hshows' hsuper (hshows.knows_of_keeps (hroot hu hx))
      (hshows.knows_of_keeps (hroot hw hr)) hknows']
    have hsame (x : Handle) : (m.fetched g heap).method? x name = m.method? x name :=
      @method?_of_alike m (m.fetched g heap) _ _ halike
    rw [hsame, hsame]

/-- The closure of the next method is made. -/
theorem onward_closure {f : Function} {fs : List Function} {ws : List UInt32}
    (h : m.Midst g rest p ps n done
      (ws :: [(Instr.method k).encode] :: (atoms ++ Instr.atoms [.pop])))
    (names : p.body.Names k f.name) (first : f.Codes p.body scope (methodKind f.name) ws scope₁)
    (rooted : scope.Rooted) (codes : p.body.Methods scope₁ fs atoms scope₂)
    (proper : ProperNames (Function.listTokens (f :: fs)))
    (stack : m.stack = S.push (.ofHandle r)) :
    m.Onward g rest p ps n name r none none (f :: fs) done ws
      ([(Instr.method k).encode] :: (atoms ++ Instr.atoms [.pop])) m' := by
  rw [Function.listTokens, properNames_append, properNames_keyword] at proper
  obtain ⟨f₀, hosts, -⟩ := h.works.plays
  obtain ⟨c₀, -, hserves₀⟩ := hosts.closure
  obtain ⟨k', x, captures, B', f', rfl, hnests⟩ :=
    first.nests rooted hserves₀.embodies.rooted proper.1
  have hahead : captures.map Capture.encode <+: p.row.words.drop (g.ip + 1) := by
    obtain ⟨tail, htail⟩ := h.position.ahead
    refine ⟨tail, ?_⟩
    rw [← List.tail_drop, ← htail]
    rfl
  obtain ⟨y, c, hretains, hclosure, hfresh, hstack, hframes, -, hfunction, hobjects, hlasts⟩ :=
    h.works.serves h.next? hm hstep hnests hahead
  obtain ⟨-, hmidst⟩ := h.behind hm hm' hs rfl (by simp) hstep (by
    rw [hframes, List.length_cons, List.length_map, Nat.add_comm 1])
  obtain ⟨W, O, hshows, -⟩ := hm
  have hkeeps : m.Keeps r := .root (mem_roots.mpr (.inl
    ⟨_, stack ▸ Array.mem_push_self, Value.toHandle?_ofHandle r⟩))
  obtain ⟨d, hd⟩ := hobject
  have hd' := (hobjects r hkeeps).trans hd
  have hne : r ∉ [y] := List.mem_singleton.not.mpr (hfresh r hkeeps)
  rw [stack] at hstack
  exact .intro (.closed h.next? (y := y) (by rw [hstack, Array.back?_push])
      ⟨k', x, c, _, _, _, first, hnests.constant, hlasts, hclosure, hfunction⟩ fun name =>
      hshows.method?_of_retains (hshows.knows_of_keeps hkeeps) hretains hne hd')
    (.midst ⟨hmidst (by simp), .closed names codes proper.2 hstack, d, hd'⟩)
    hretains fun z hz _ => List.mem_singleton.not.mpr (hfresh z hz)

omit hobject in
/-- The closure made last is added to the class. -/
theorem onward_method {f : Function} {fs : List Function} {y : Handle}
    (h : m.Midst g rest p ps n done ([(Instr.method k).encode] :: (atoms ++ Instr.atoms [.pop])))
    (names : p.body.Names k f.name) (codes : p.body.Methods scope fs atoms scope₁)
    (proper : ProperNames (Function.listTokens fs))
    (stack : m.stack = (S.push (.ofHandle r)).push (.ofHandle y)) :
    m.Onward g rest p ps n name r none (some y) (f :: fs) done [(Instr.method k).encode]
      (atoms ++ Instr.atoms [.pop]) m' := by
  obtain ⟨heap, halike, hdone, -, hmidst⟩ := h.straight hm hm' hs rfl rfl hstep
  obtain ⟨W, O, O', hshows, hfetched⟩ := hm.shows_fetched h.works.back halike
  obtain ⟨z, key, v, w, r', c, hname, hkey, hv, hw, hr, hreshaped⟩ := Exec.addMethod_eq_ok hdone
  change m.stack[m.stack.size - 1 - 0]? = some v at hv
  change m.stack[m.stack.size - 1 - 1]? = some w at hw
  obtain rfl : v = .ofHandle y := by
    rw [stack, Array.size_push, Nat.sub_zero, Nat.add_sub_cancel, Array.getElem?_push_size,
      Option.some.injEq] at hv
    exact hv.symm
  obtain rfl : r = r' := by
    rw [stack, Array.size_push, Nat.add_sub_cancel, Array.size_push, Nat.add_sub_cancel,
      Array.getElem?_push, if_neg (by simp), Array.getElem?_push_size, Option.some.injEq] at hw
    rw [← hw, Value.toHandle?_ofHandle, Option.some.injEq] at hr
    exact hr
  have hstack' : m'.stack = S.push (.ofHandle r) := by
    obtain ⟨heap', rfl⟩ := hreshaped.rest
    exact (congrArg Array.pop stack).trans Array.pop_push
  obtain ⟨-, s, hs, hchars⟩ := h.string_of_constant names hname
  have hreads : (m.fetched g heap).heap.reads z f.name = true :=
    Heap.reads_iff.mpr ⟨s, (halike.object? z).trans hs, hchars⟩
  have hroot {m : Machine} (hv : .ofHandle r ∈ m.stack) : m.Keeps r :=
    .root (mem_roots.mpr (.inl ⟨_, hv, Value.toHandle?_ofHandle r⟩))
  have hknows : W.Knows r := hshows.knows_of_keeps
    (hroot (stack ▸ Array.mem_push_of_mem _ Array.mem_push_self))
  obtain ⟨W', O₁, hshows', -⟩ := hm'
  have hknows' : W'.Knows r := hshows'.knows_of_keeps (hroot (hstack' ▸ Array.mem_push_self))
  refine onward_of_reshaped h.works.back halike hreshaped (.added h.next? fun name => ?_)
    (.midst ⟨hmidst (by simp [Instr.atoms]), .adding codes proper hstack', _,
      (hreshaped.objects r).trans (if_pos rfl)⟩)
  rw [hreshaped.method?_insert hfetched hshows' hkey hreads hknows hknows']
  congr 1
  exact @method?_of_alike m (m.fetched g heap) _ _ halike

/-- The class is taken off the stack, and the declaration is complete. -/
theorem onward_pop (h : m.Midst g rest p ps n done [[Instr.pop.encode]]) :
    m.Onward g rest p ps n name r none none [] done [Instr.pop.encode] [] m' := by
  obtain ⟨heap, halike, hdone, hworks, -⟩ := h.straight hm hm' hs rfl rfl hstep
  obtain rfl := Exec.drop_eq_ok hdone
  obtain ⟨c, hc⟩ := hobject
  exact onward_of_alike h.next? (by simp) (by simp) halike rfl
    (.behind hworks ⟨c, (halike.object? r).trans hc⟩)

end Here

/-- A step in the midst of a declaration leads to the next atom of it, or completes it. -/
theorem Declaring.step (h : m.Declaring g rest p ps n name r parent made methods done left)
    (hm : m.Ready) (hm' : m'.Ready) (hs : m.Sourced) (hstep : Exec.step m = .ok .running m') :
    ∃ atom left', left = atom :: left' ∧
      m.Onward g rest p ps n name r parent made methods done atom left' m' := by
  obtain ⟨hmidst, hstage, hobject⟩ := h
  cases hstage with
  | made own inherits codes proper stack =>
    exact ⟨_, _, rfl, onward_made hm hm' hs hstep hobject hmidst own inherits codes proper stack⟩
  | kept own inherits codes proper reads =>
    cases inherits with
    | none => exact ⟨_, _, rfl, onward_kept hm hm' hs hstep hobject hmidst codes proper (reads _ own)⟩
    | some found again =>
      exact ⟨_, _, rfl, onward_beside hm hm' hs hstep hobject hmidst own again codes proper reads⟩
  | beside own again codes proper stack reads =>
    exact ⟨_, _, rfl, onward_above hm hm' hs hstep hobject hmidst own again codes proper stack reads⟩
  | above own codes proper stack reads =>
    exact ⟨_, _, rfl, onward_inherited hm hm' hs hstep hobject hmidst own codes proper stack reads⟩
  | adding codes proper stack =>
    cases codes with
    | nil => exact ⟨_, _, rfl, onward_pop hm hm' hs hstep hobject hmidst⟩
    | cons names first rooted others =>
      exact ⟨_, _, rfl, onward_closure hm hm' hs hstep hobject hmidst names first rooted others
        proper stack⟩
  | closed names codes proper stack =>
    exact ⟨_, _, rfl, onward_method hm hm' hs hstep hmidst names codes proper stack⟩

end Steps

end Machine

end ScriptMachine
