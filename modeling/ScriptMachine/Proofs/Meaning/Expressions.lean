import ScriptMachine.Proofs.Meaning.Instructions

/-!
# Expressions

A variable of a block around is in the slot that the scope says, and what no block declares is a
global. An assignment to a global that is not there leaves the globals as they were.

The code of an expression does what its evaluation does and leaves the value on top of the stack.
-/

namespace ScriptMachine

open Exec
open Compile (Access)

/-- The machine with a value for a global. -/
def Machine.withGlobal (m : Machine) (key : Key) (v : Value) : Machine :=
  { m with
    heap := m.heap.chargeGrowth m.globals.capacity (m.globals.insert key v).2.capacity
    globals := (m.globals.insert key v).2 }

/-- A global that has a value has it under its name. -/
theorem Machine.Shows.global?_withGlobal {m : Machine} {W : World} {O : Outline} {v : Value}
    {r : Handle} {text : Interned} (hm : m.Shows W O) (hknown : W.Holds v .any)
    (hkey : W.KeyOk ⟨r, text.hash⟩) (htext : m.heap.object? r = some (.string text)) (name : String) :
    (m.withGlobal ⟨r, text.hash⟩ v).global? name =
      if name = text.chars then some v else m.global? name := by
  have halike : m.heap.Alike (m.withGlobal ⟨r, text.hash⟩ v).heap := ⟨rfl, rfl, rfl, rfl, rfl⟩
  exact hm.globals.under?_insert hm.sound hm.fits (hm.globals.insert hkey hknown)
    (hm.sound.congr halike) (fun _ _ => rfl) (Heap.key_eq htext)
    (Heap.reads_iff.mpr ⟨text, htext, rfl⟩)

namespace Script

variable {S : Script} {m : Machine} {ip : Nat} {vars : List (List String)} {σ : Store} {d : Datum}
  {ds : List Datum} {v : Value} {k : UInt16} {name : String}

/-- Where a variable of a script that captures nothing is kept. -/
theorem finds_cases {scope : Scope} {access : Access} (h : S.body.Finds scope name access) :
    (∃ slot, access = .local_ slot ∧ scope.Declares name slot.toNat) ∨
      ∃ k, access = .global k ∧ scope.Lacks name ∧ S.body.Names k name := by
  cases h with
  | local_ declares => exact .inl ⟨_, rfl, declares⟩
  | upvalue lacks reaches =>
    rw [S.outer] at reaches
    cases reaches
  | global lacks _ names => exact .inr ⟨_, rfl, lacks, names⟩

/-- The value of a local in its slot, and what is below and above it. -/
theorem Holds.exists_slot {pre post : Environment} (h : S.Holds ip vars σ ds m)
    (hlocals : σ.locals = pre ++ (name, d) :: post) : ∃ c vs v ws,
      m.stack.toList = (c :: vs.reverse) ++ v :: ws.reverse ∧ vs.length = post.length ∧
        m.heap.Denotes S.natives v d ∧
        List.Forall₂ (m.heap.Denotes S.natives) vs (post.map Prod.snd) ∧
        List.Forall₂ (m.heap.Denotes S.natives) ws (ds ++ pre.map Prod.snd) := by
  obtain ⟨c, us, hus, hdenote⟩ := h.values
  have hvalues : ds ++ σ.values = (ds ++ pre.map Prod.snd) ++ d :: post.map Prod.snd := by
    rw [Store.values, hlocals]
    simp
  rw [hvalues] at hdenote
  obtain ⟨ws, vs, rfl, hws, hvs⟩ := forall₂_append_right hdenote
  cases hvs with
  | @cons v _ vs _ hv hvs =>
    exact ⟨c, vs, v, ws, by simp [hus], by simpa using hvs.length_eq, hv, hvs, hws⟩

/-- The text of a string is read. -/
theorem textOf_eq {r : Handle} {text : Interned} (h : m.heap.object? r = some (.string text)) :
    textOf r m = .ok text.chars m := by
  have hread : m.heap.string r = .ok text := by rw [Heap.string, Heap.object, h]
  rw [textOf, bind_eq (readHeap_eq hread)]
  rfl

/-- A global is read. -/
theorem Holds.getGlobal (h : S.Holds ip vars σ ds m) (hm : m.Shown) (hk : S.body.Names k name) :
    Exec.getGlobal k m = match m.global? name with
      | some v => Exec.push v m
      | none => .error (.error (.undefinedVariable name)) m := by
  obtain ⟨r, s, -, hr, hs, rfl⟩ := h.constantHandle hk
  obtain ⟨W, O, hshows⟩ := hm
  have hkey := Heap.key_eq hs
  have hget := hshows.globals.get?_eq_under? hshows.sound hshows.fits hs hkey
  rw [Exec.getGlobal, bind_eq hr, bind_eq (readHeap_eq hkey)]
  show (match m.globals.get? ⟨r, s.hash⟩ with
    | some v => Exec.push v
    | none => do raise (.undefinedVariable (← textOf r)) : Exec Unit) m = _
  rw [hget, Machine.global?]
  cases m.heap.under? m.globals s.chars with
  | some v => rfl
  | none => exact bind_eq (textOf_eq hs)

/-- A variable is read. -/
theorem At.get {access : Access} (h : S.At ip vars σ ds m)
    (hfound : S.body.Finds (.ofBlocks vars) name access) (hname : Proper name) (hi : S.chunk.code[ip]? = some access.get.encode) :
    S.Runs m (Eval.read name σ) fun d σ' => S.At (ip + 1) vars σ' (d :: ds) := by
  rcases finds_cases hfound with ⟨slot, rfl, hdeclares⟩ | ⟨k, rfl, hlacks, hk⟩
  · rw [← h.2.declared] at hdeclares
    obtain ⟨pre, d, post, hlocals, hpre, hslot⟩ := Store.exists_local hdeclares hname
    have hread : Eval.read name σ = .ok d σ := by
      rw [Eval.read, Store.find?_eq, hlocals, (Environment.lookup_of_latest (d := d) hpre).1]
      rfl
    rw [hread]
    refine h.pushes hi (fun heq => by cases heq) fun n _ hholds => ?_
    obtain ⟨c, vs, v, ws, hstack, hlength, hv, -, -⟩ := hholds.exists_slot hlocals
    have hget : n.stack[0 + slot.toUInt16.toNat]? = some v := by
      rw [← Array.getElem?_toList, hstack, Nat.zero_add, UInt8.toNat_toUInt16, hslot, ← hlength]
      simp
    have hframe : frame n = .ok ⟨S.closure, S.chunk, ip + 1, 0⟩ n := by rw [frame, hholds.back]
    have hslot : readSlot (0 + slot.toUInt16.toNat) n = .ok v n := by rw [readSlot, hget]
    exact ⟨v, (bind_eq hholds.frame).trans (bind_eq hslot), hv⟩
  · rw [← h.2.declared] at hlacks
    have hread : Eval.read name σ = (σ.globals name).elim
        (.error (.error (.undefinedVariable name)) σ) fun d => .ok d σ := by
      have hfind : σ.find? name = σ.globals name := by
        rw [Store.find?_eq, (Environment.lookup_of_lacks (d := .null) (Store.lacks_locals hlacks)).1,
          Option.none_or]
      cases hglobal : σ.globals name <;>
        simp only [Eval.read, hfind, hglobal, Option.elim_none, Option.elim_some]
    rw [hread]
    refine h.step hi (fun heq => by cases heq) fun n hn hholds => ?_
    show S.Mimics _ _ (Exec.getGlobal k n) _
    have hrel := hholds.globals name
    have hreflects := hholds.toReflects
    rw [hholds.getGlobal hn hk]
    generalize n.global? name = found at hrel ⊢
    generalize σ.globals name = known at hrel ⊢
    cases hrel with
    | some hv => exact .ok (hholds.push hv)
    | none => exact .error hreflects

/-- A local is assigned. -/
theorem Holds.setLocal {pre post : Environment} {old : Datum} {blocks : List Environment}
    (h : S.Holds ip vars σ (d :: ds) m) (hlocals : σ.locals = pre ++ (name, old) :: post)
    (hblocks : blocks.flatten = pre ++ (name, d) :: post)
    (hdeclared : Store.declared { σ with blocks := blocks } = σ.declared) {slot : UInt16}
    (hslot : slot.toNat = post.length + 1) :
    ∃ m', perform (.setLocal slot) m = .ok () m' ∧
      S.Holds ip vars { σ with blocks := blocks } (d :: ds) m' := by
  obtain ⟨c, vs, v, ws, hstack, hlength, -, hvs, hws⟩ := h.exists_slot hlocals
  cases hws with
  | @cons w _ ws _ hw hws =>
    have hlast : m.stack.toList = (c :: vs.reverse ++ v :: ws.reverse) ++ [w] := by
      rw [hstack]
      simp
    have hback : m.stack = m.stack.pop.push w :=
      eq_pop_push (by rw [← Array.getLast?_toList, hlast, List.getLast?_concat])
    have hlt : 0 + slot.toNat < m.stack.size := by
      rw [← Array.length_toList, hstack]
      simp
      omega
    have hwrite : writeSlot (0 + slot.toNat) w m =
        .ok () { m with stack := m.stack.setIfInBounds (0 + slot.toNat) w } := by
      rw [writeSlot, if_pos hlt]
    refine ⟨_, (bind_eq h.frame).trans ((bind_eq (peek_top hback)).trans hwrite), ?_⟩
    have hset : (m.stack.setIfInBounds (0 + slot.toNat) w).toList =
        c :: ((w :: ws) ++ w :: vs).reverse := by
      rw [Array.toList_setIfInBounds, hstack, Nat.zero_add, hslot, ← hlength]
      simp
    have hvalues : ({ σ with blocks := blocks } : Store).values =
        pre.map Prod.snd ++ d :: post.map Prod.snd := by
      rw [Store.values, show Store.locals { σ with blocks := blocks } = _ from hblocks]
      simp
    refine { h with declared := hdeclared.trans h.declared, values := ⟨c, _, hset, ?_⟩ }
    rw [hvalues, ← List.append_assoc, List.cons_append]
    exact List.rel_append (.cons hw hws) (.cons hw hvs)

/-- The key of a name among the constants. -/
theorem Holds.keyOk {W : World} {O : Outline} {r : Handle} {text : Interned}
    (h : S.Holds ip vars σ ds m) (hm : m.Shows W O)
    (hr : S.body.constants[k.toNat]? = some (.ofHandle r))
    (htext : m.heap.object? r = some (.string text)) : W.KeyOk ⟨r, text.hash⟩ := by
  obtain ⟨t, ht⟩ := hm.knows_of_keeps (h.keeps_constant ⟨W, O, hm⟩ hr)
  obtain ⟨o, ho, hdescribes⟩ := hm.fits r t ht
  obtain rfl := Option.some.inj (ho.symm.trans htext)
  cases hdescribes with
  | text => exact ⟨_, ht, rfl⟩

/-- A global has another value. -/
theorem Holds.setGlobal {W : World} {O : Outline} {r : Handle} {text : Interned}
    (h : S.Holds ip vars σ ds m) (hm : m.Shows W O) (hv : m.heap.Denotes S.natives v d)
    (hknown : W.Holds v .any) (hkey : W.KeyOk ⟨r, text.hash⟩)
    (htext : m.heap.object? r = some (.string text)) :
    S.Holds ip vars (σ.setGlobal text.chars d) ds (m.withGlobal ⟨r, text.hash⟩ v) := by
  have halike : m.heap.Alike (m.withGlobal ⟨r, text.hash⟩ v).heap := ⟨rfl, rfl, rfl, rfl, rfl⟩
  have hsame (x : Handle) : (m.withGlobal ⟨r, text.hash⟩ v).heap.object? x = m.heap.object? x :=
    halike.object? x
  have hheld : S.Holds ip vars σ ds { m with heap := (m.withGlobal ⟨r, text.hash⟩ v).heap } :=
    h.carry ⟨W, O, hm⟩ rfl rfl rfl rfl rfl fun x _ => hsame x
  refine { hheld with globals := fun other => ?_ }
  rw [hm.global?_withGlobal hknown hkey htext]
  show Option.Rel _ _ (if other = text.chars then some d else σ.globals other)
  split
  · exact .some (hv.carry fun x _ => hsame x)
  · have hrel := hheld.globals other
    rwa [show Machine.global? { m with heap := (m.withGlobal ⟨r, text.hash⟩ v).heap } other =
      m.global? other from Heap.under?_congr fun x _ => hsame x] at hrel

/-- A value on the stack is known. -/
theorem holds_of_mem {W : World} {O : Outline} (hm : m.Shows W O) (hv : v ∈ m.stack) :
    W.Holds v .any := by
  obtain ⟨s, -, hs⟩ := exists_of_mem_left hm.stack (Array.mem_toList_iff.mpr hv)
  exact hs.any

/-- What is done to a global with the operand on top of the stack starts with its key and the
operand. -/
theorem Holds.exists_key {α : Type} {W : World} {O : Outline} (h : S.Holds ip vars σ (d :: ds) m)
    (hm : m.Shows W O) (hk : S.body.Names k name) (x : Handle → Key → Value → Exec α) :
    ∃ (r : Handle) (text : Interned) (below : Array Value) (v : Value),
      text.chars = name ∧ m.heap.object? r = some (.string text) ∧
      W.KeyOk ⟨r, text.hash⟩ ∧ m.stack = below.push v ∧ m.heap.Denotes S.natives v d ∧
      W.Holds v .any ∧ (do
        let name ← Exec.constantHandle k
        let key ← readHeap (·.key name)
        let v ← peek 0
        x name key v : Exec α) m = x r ⟨r, text.hash⟩ v m := by
  obtain ⟨r, text, hr, hname, htext, hchars⟩ := h.constantHandle hk
  obtain ⟨below, v, hstack, hv, -⟩ := h.exists_top
  exact ⟨r, text, below, v, hchars, htext, h.keyOk hm hr htext, hstack, hv,
    holds_of_mem hm (hstack ▸ Array.mem_push_self), (bind_eq hname).trans
      ((bind_eq (readHeap_eq (Heap.key_eq htext))).trans (bind_eq (peek_top hstack)))⟩

/-- A global is declared outside of all blocks. -/
theorem At.define (h : S.At ip vars σ (d :: ds) m) (hk : S.body.Names k name)
    (hblocks : σ.blocks = []) (hi : S.chunk.code[ip]? = some (Instr.defineGlobal k).encode) :
    S.Runs m (Eval.declare name d σ) fun _ σ' m' => S.At (ip + 1) vars σ' ds m' := by
  have hdeclare : Eval.declare name d σ = .ok () (σ.setGlobal name d) := by
    rw [Eval.declare, Store.declare, hblocks]
  rw [hdeclare]
  refine h.step hi (fun heq => by cases heq) fun n ⟨W, O, hn⟩ hholds => ?_
  obtain ⟨r, text, below, v, rfl, htext, hkey, hstack, hv, hknown, hdo⟩ :=
    hholds.exists_key hn hk fun _ key v => do
      let _ ← Exec.setGlobal key v
      drop
  have hset := hholds.setGlobal hn hv hknown hkey htext
  obtain ⟨below', w, hstack', -, hrest⟩ := hset.exists_top
  obtain ⟨rfl, rfl⟩ := Array.push_eq_push.mp (hstack.symm.trans hstack')
  show S.Mimics _ _ (Exec.defineGlobal k n) _
  have hperform : Exec.defineGlobal k n = .ok () { n.withGlobal ⟨r, text.hash⟩ v with stack := below } :=
    hdo.trans (drop_top hstack')
  rw [hperform]
  exact .ok hrest

/-- An assignment to a global that is not there is taken back. -/
theorem Holds.reflects_undone {W : World} {O : Outline} {key : Key} {m' : Machine} {r : Handle}
    {e : RuntimeError} (h : S.Holds ip vars σ ds m) (hm : m.Shows W O) (hknown : W.Holds v .any)
    (hkey : W.KeyOk key) (hagrees : Table.Agrees m.globals.entries key)
    (hstop : (do
      if ← Exec.setGlobal key v then
        eraseGlobal key
        raise (.undefinedVariable (← textOf r)) : Exec Unit) m = .error (.error e) m')
    (hglobals : m'.globals = ((m.globals.insert key v).2.erase key).2)
    (hheap : m.heap.Alike m'.heap) (hsink : m'.sink = m.sink)
    (hopen : m'.openUpvalues = m.openUpvalues) : m'.Reflects S.natives σ where
  globals name := by
    have hsame (other : String) : m'.global? other = m.global? other :=
      hm.globals.under?_of_mem hm.sound (hglobals ▸ (hm.globals.insert hkey hknown).erase hkey)
        (hm.sound.congr hheap) (fun x text => by rw [Heap.reads, Heap.reads, hheap.object?])
        (spared_undone hm.globals hagrees hstop 0).globals
    have hrel := h.globals name
    rw [hsame]
    generalize m.global? name = found at hrel ⊢
    generalize σ.globals name = known at hrel ⊢
    cases hrel with
    | none => exact .none
    | some hd => exact .some (hd.carry fun x _ => hheap.object? x)
  sink := hsink.trans h.sink
  closed := hopen.trans h.closed

/-- A global that is there is the one that its key leads to. -/
theorem has_iff {W : World} {O : Outline} {r : Handle} {text : Interned} (hm : m.Shows W O)
    (htext : m.heap.object? r = some (.string text)) :
    m.globals.Has ⟨r, text.hash⟩ ↔ m.global? text.chars ≠ none := by
  have hkey := Heap.key_eq htext
  rw [Machine.global?, ← hm.globals.get?_eq_under? hm.sound hm.fits htext hkey,
    Option.ne_none_iff_exists']
  simp only [hm.globals.valid.get?_eq_some_iff (hm.globals.agrees_of_key hm.fits hkey)]
  exact exists_comm

/-- A global is assigned, if it is there. -/
theorem At.setGlobal (h : S.At ip vars σ (d :: ds) m) (hlacks : ∀ e ∈ σ.locals, e.1 ≠ name)
    (hk : S.body.Names k name) (hi : S.chunk.code[ip]? = some (Instr.setGlobal k).encode) :
    S.Runs m (Eval.write name d σ) fun _ σ' => S.At (ip + 1) vars σ' (d :: ds) := by
  refine h.step hi (fun heq => by cases heq) fun n ⟨W, O, hn⟩ hholds => ?_
  obtain ⟨r, text, below, v, rfl, htext, hkey, hstack, hv, hknown, hdo⟩ :=
    hholds.exists_key hn hk fun r key v => do
      if ← Exec.setGlobal key v then
        eraseGlobal key
        raise (.undefinedVariable (← textOf r))
  show S.Mimics _ _ (assignGlobal k n) _
  have hagrees := hn.globals.agrees_of_key hn.fits (Heap.key_eq htext)
  have hisNew := (hn.globals.valid.insert hagrees v).isNew
  have hwrite : Eval.write text.chars d σ = (σ.globals text.chars).elim
      (.error (.error (.undefinedVariable text.chars)) σ)
      fun _ => .ok () (σ.setGlobal text.chars d) := by
    rw [Eval.write, Store.assign?_of_lacks hlacks]
    cases σ.globals text.chars <;> rfl
  have hrel := hholds.globals text.chars
  rw [show assignGlobal k n = _ from hdo, hwrite]
  have hset : Exec.setGlobal ⟨r, text.hash⟩ v n = .ok (n.globals.insert ⟨r, text.hash⟩ v).1
      (n.withGlobal ⟨r, text.hash⟩ v) := rfl
  cases hknownGlobal : σ.globals text.chars with
  | some old =>
    have hthere : n.globals.Has ⟨r, text.hash⟩ := by
      refine (has_iff hn htext).mpr fun hnone => ?_
      rw [hnone, hknownGlobal] at hrel
      cases hrel
    have hold : (n.globals.insert ⟨r, text.hash⟩ v).1 = false :=
      Bool.eq_false_iff.mpr fun hnew => hisNew.mp hnew hthere
    rw [bind_eq hset, hold]
    exact .ok (hholds.setGlobal hn hv hknown hkey htext)
  | none =>
    have hmissing : ¬ n.globals.Has ⟨r, text.hash⟩ := by
      rw [has_iff hn htext, not_not]
      rw [hknownGlobal] at hrel
      generalize n.global? text.chars = found at hrel ⊢
      cases hrel
      rfl
    have hnew := hisNew.mpr hmissing
    have halike : n.heap.Alike (n.withGlobal ⟨r, text.hash⟩ v).heap := ⟨rfl, rfl, rfl, rfl, rfl⟩
    have herased : eraseGlobal ⟨r, text.hash⟩ (n.withGlobal ⟨r, text.hash⟩ v) = .ok ()
        { n.withGlobal ⟨r, text.hash⟩ v with
          globals := ((n.globals.insert ⟨r, text.hash⟩ v).2.erase ⟨r, text.hash⟩).2 } := rfl
    have hstop : (do
        if ← Exec.setGlobal ⟨r, text.hash⟩ v then
          eraseGlobal ⟨r, text.hash⟩
          raise (.undefinedVariable (← textOf r)) : Exec Unit) n =
        .error (.error (.undefinedVariable text.chars)) { n.withGlobal ⟨r, text.hash⟩ v with
          globals := ((n.globals.insert ⟨r, text.hash⟩ v).2.erase ⟨r, text.hash⟩).2 } := by
      rw [bind_eq hset, hnew]
      exact (bind_eq herased).trans (bind_eq (textOf_eq ((halike.object? r).trans htext)))
    rw [hstop]
    exact .error (hholds.reflects_undone hn hknown hkey hagrees hstop rfl halike rfl rfl)

/-- A variable is assigned. -/
theorem At.set {access : Access} (h : S.At ip vars σ (d :: ds) m)
    (hfound : S.body.Finds (.ofBlocks vars) name access) (hname : Proper name)
    (hi : S.chunk.code[ip]? = some access.set.encode) :
    S.Runs m (Eval.write name d σ) fun _ σ' => S.At (ip + 1) vars σ' (d :: ds) := by
  rcases finds_cases hfound with ⟨slot, rfl, hdeclares⟩ | ⟨k, rfl, hlacks, hk⟩
  · rw [← h.2.declared] at hdeclares
    obtain ⟨pre, old, post, hlocals, hpre, hslot⟩ := Store.exists_local hdeclares hname
    obtain ⟨blocks, hassigned, hblocks, hdeclared⟩ := Store.exists_assigned hlocals hpre d
    have hwrite : Eval.write name d σ = .ok () { σ with blocks := blocks } := by
      rw [Eval.write, hassigned]
    rw [hwrite]
    refine h.step hi (fun heq => by cases heq) fun n _ hholds => ?_
    obtain ⟨m', hset, hholds⟩ := hholds.setLocal hlocals hblocks hdeclared
      (show slot.toUInt16.toNat = _ by rw [UInt8.toNat_toUInt16, hslot])
    rw [show perform (Access.local_ slot).set n = _ from hset]
    exact .ok hholds
  · rw [← h.2.declared] at hlacks
    exact h.setGlobal (Store.lacks_locals hlacks) hk hi

end Script

end ScriptMachine

namespace ScriptMachine

open Exec

namespace Script

variable {S : Script} {m : Machine} {ip : Nat} {vars : List (List String)} {σ : Store} {d a b : Datum}
  {ds : List Datum} {ws : List UInt32}

/-- An arithmetic operator replaces its operands by what it makes of them. -/
theorem At.operate (op : Arithmetic) (h : S.At ip vars σ (b :: a :: ds) m)
    (hi : S.chunk.code[ip]? = some op.instr.encode) :
    S.Runs m (op.eval a b σ) fun d σ' => S.At (ip + 1) vars σ' (d :: ds) := by
  cases op with
  | add => exact h.add hi
  | subtract | multiply | divide =>
    exact h.arithmetic hi (fun heq => by cases heq) rfl fun _ _ _ => .number

/-- The code of an operator replaces its operands by what it makes of them. -/
theorem At.binary (op : BinaryOp) (h : S.At ip vars σ (b :: a :: ds) m)
    (hws : S.Has ip (op.code.map Instr.encode)) : S.Runs m (op.eval a b σ) fun d σ' =>
      S.At (ip + (op.code.map Instr.encode).length) vars σ' (d :: ds) := by
  cases op with
  | arithmetic op => exact h.operate op (has_cons.mp hws).1
  | equal => exact h.equal (has_cons.mp hws).1
  | greater | less =>
    exact h.arithmetic (has_cons.mp hws).1 (fun heq => by cases heq) rfl fun _ _ _ => .truth
  | notEqual =>
    obtain ⟨hequal, hnot⟩ := by simpa [BinaryOp.code] using hws
    exact (h.equal hequal).bind fun d _ _ hd => hd.not hnot
  | greaterEqual | lessEqual =>
    obtain ⟨hcompare, hnot⟩ := by simpa [BinaryOp.code] using hws
    exact (h.arithmetic hcompare (fun heq => by cases heq) rfl fun _ _ _ => .truth).bind
      fun d _ _ hd => hd.not hnot

/-- The code of an expression leaves the value that the evaluation comes to. -/
theorem evaluates {e : Core.Expr} (hp : ProperNames e.tree.tokens) (h : S.At ip vars σ ds m)
    (hcodes : e.tree.Codes S.body (.ofBlocks vars) ws) (hws : S.Has ip ws) :
    S.Runs m (e.eval σ) fun d σ' => S.At (ip + ws.length) vars σ' (d :: ds) := by
  induction e generalizing ip σ ds m ws with
  | number x =>
    cases hcodes with
    | number constant =>
      exact h.pushes (has_cons.mp hws).1 (fun heq => by cases heq) fun n _ hholds =>
        ⟨.ofFloat x, bind_eq (hholds.constant constant), .number⟩
  | text content =>
    cases hcodes with
    | text names =>
      refine h.pushes (has_cons.mp hws).1 (fun heq => by cases heq) fun n _ hholds => ?_
      obtain ⟨r, s, hr, -, hs, rfl⟩ := hholds.constantHandle names
      exact ⟨.ofHandle r, bind_eq (hholds.constant hr), .text hs⟩
  | true_ =>
    cases hcodes
    exact h.pushes (i := .true_) (has_cons.mp hws).1 (fun heq => by cases heq) fun _ _ _ =>
      ⟨_, rfl, .truth⟩
  | false_ =>
    cases hcodes
    exact h.pushes (i := .false_) (has_cons.mp hws).1 (fun heq => by cases heq) fun _ _ _ =>
      ⟨_, rfl, .truth⟩
  | null =>
    cases hcodes
    exact h.pushes (i := .null) (has_cons.mp hws).1 (fun heq => by cases heq) fun _ _ _ =>
      ⟨_, rfl, .null⟩
  | group e ih =>
    simp [Core.Expr.tree, Expr.tokens] at hp
    cases hcodes with
    | group inner => exact ih hp h inner hws
  | negate e ih =>
    simp [Core.Expr.tree, Expr.tokens] at hp
    cases hcodes with
    | negate operand =>
      obtain ⟨hoperand, hnegate⟩ := by simpa using hws
      refine (ih hp h operand hoperand).bind fun d _ _ hd => ?_
      simpa [Nat.add_assoc] using hd.negate hnegate
  | not e ih =>
    simp [Core.Expr.tree, Expr.tokens] at hp
    cases hcodes with
    | not operand =>
      obtain ⟨hoperand, hnot⟩ := by simpa using hws
      refine (ih hp h operand hoperand).bind fun d _ _ hd => ?_
      simpa [Nat.add_assoc] using hd.not hnot
  | variable_ name =>
    simp [Core.Expr.tree, Expr.tokens] at hp
    cases hcodes with
    | variable_ found => exact h.get found hp (has_cons.mp hws).1
  | assign name e ih =>
    simp [Core.Expr.tree, Expr.tokens] at hp
    cases hcodes with
    | assign found value =>
      obtain ⟨hvalue, hset⟩ := by simpa using hws
      refine (ih hp.2 h value hvalue).bind fun d _ _ hd => ?_
      refine (hd.set found hp.1 hset).bind fun _ _ _ hd => .ok ?_
      simpa [Nat.add_assoc] using hd
  | update name op e ih =>
    simp [Core.Expr.tree, Expr.tokens] at hp
    cases hcodes with
    | update found value =>
      obtain ⟨hget, hvalue, hop, hset⟩ := by simpa using hws
      refine (h.get found hp.1 hget).bind fun old _ _ hold => ?_
      refine (ih hp.2 hold value hvalue).bind fun d _ _ hd => ?_
      refine (hd.operate op hop).bind fun d _ _ hd => ?_
      refine (hd.set found hp.1 hset).bind fun _ _ _ hd => .ok ?_
      simpa [Nat.add_assoc, Nat.add_comm 1] using hd
  | binary op l r hl hr =>
    simp [Core.Expr.tree, Expr.tokens] at hp
    cases hcodes with
    | binary left right =>
      obtain ⟨hleft, hright, hop⟩ := by simpa using hws
      refine (hl hp.1 h left hleft).bind fun a _ _ ha => ?_
      refine (hr hp.2 ha right hright).bind fun b _ _ hb => ?_
      simpa [Nat.add_assoc] using hb.binary op (by simpa [Nat.add_assoc] using hop)
  | both l r hl hr =>
    simp [Core.Expr.tree, Expr.tokens] at hp
    cases hcodes with
    | both left right skip =>
      obtain ⟨hleft, hjump, hpop, hright⟩ := by simpa using hws
      refine (hl hp.1 h left hleft).bind fun a _ _ ha => ?_
      refine Runs.andThen (ha.jumpIfFalse hjump) fun m hm => ?_
      cases hfalsey : a.isFalsey with
      | true =>
        rw [hfalsey, if_pos rfl, skip] at hm
        exact .ok (by simpa [Nat.add_assoc, Nat.add_comm, Nat.add_left_comm] using hm)
      | false =>
        rw [hfalsey, if_neg Bool.false_ne_true] at hm
        refine Runs.andThen (hm.pop hpop) fun m hm => ?_
        simpa [Nat.add_assoc, Nat.add_comm, Nat.add_left_comm] using hr hp.2 hm right hright
  | either l r hl hr =>
    simp [Core.Expr.tree, Expr.tokens] at hp
    cases hcodes with
    | either left right skip leave =>
      obtain ⟨hleft, hbranch, hjump, hpop, hright⟩ := by simpa using hws
      refine (hl hp.1 h left hleft).bind fun a _ _ ha => ?_
      refine Runs.andThen (ha.jumpIfFalse hbranch) fun m hm => ?_
      cases hfalsey : a.isFalsey with
      | true =>
        rw [hfalsey, if_pos rfl, skip] at hm
        refine Runs.andThen (hm.pop hpop) fun m hm => ?_
        simpa [Nat.add_assoc, Nat.add_comm, Nat.add_left_comm] using hr hp.2 hm right hright
      | false =>
        rw [hfalsey, if_neg Bool.false_ne_true] at hm
        refine Runs.andThen (hm.jump hjump) fun m hm => .ok ?_
        rw [leave] at hm
        simpa [Nat.add_assoc, Nat.add_comm, Nat.add_left_comm] using hm

end Script

end ScriptMachine
