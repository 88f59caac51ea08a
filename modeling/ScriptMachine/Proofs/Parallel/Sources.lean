import ScriptMachine.Machine.Session
import ScriptMachine.Proofs.Parallel.Grammar
import ScriptMachine.Proofs.Parallel.Reading
import ScriptMachine.Proofs.Parallel.Running
import ScriptMachine.Proofs.Session.Commands

/-!
# One source on corresponding machines

The listing of a function shows its code, its lines and the printed forms of its constants, and no
handle. So corresponding functions with the same lines are listed alike, and so are the functions
among their constants, which are met in the same order.

Corresponding machines compile a source to corresponding scripts or refuse it with the same errors.
Then they run alike, and fail with the same report where lines count.
-/

namespace ScriptMachine.Pairing

variable {p : Pairing} {h h' : Heap} {c d : Chunk} {v w : Value}

/-! ### One chunk -/

/-- Constants of one index correspond. -/
theorem Chunks.constant? (hcd : p.Chunks c d) (index : UInt16) :
    Option.Rel p.Values c.constants[index.toNat]? d.constants[index.toNat]? := by
  have hrel := forall₂_getElem? hcd.constants index.toNat
  rwa [Array.getElem?_toList, Array.getElem?_toList] at hrel

/-- Paired constants are shown alike. -/
theorem Heaps.constantText (hp : p.Heaps h h') (hcd : p.Chunks c d) (index : UInt16) :
    FindAlike (· = ·) (c.constantText h index) (d.constantText h' index) := by
  have hrel := hcd.constant? index
  unfold Chunk.constantText
  generalize c.constants[index.toNat]? = found at hrel
  generalize d.constants[index.toNat]? = found' at hrel
  cases hrel with
  | none => exact findAlike_ok rfl
  | some hvw => exact hp.display hvw

/-- Paired functions have as many captures. -/
theorem Heaps.captureCount (hp : p.Heaps h h') (hcd : p.Chunks c d) (index : UInt16) :
    FindAlike (· = ·) (c.captureCount h index) (d.captureCount h' index) := by
  have hrel := hcd.constant? index
  unfold Chunk.captureCount
  generalize c.constants[index.toNat]? = found at hrel
  generalize d.constants[index.toNat]? = found' at hrel
  cases hrel with
  | none => exact findAlike_ok rfl
  | some hvw =>
    have hhandles := hvw.toHandle?
    simp only [Option.bind_some]
    generalize Value.toHandle? _ = found at hhandles
    generalize Value.toHandle? _ = found' at hhandles
    cases hhandles with
    | none => exact findAlike_ok rfl
    | some hxy => exact (hp.prototype hxy).bind fun f g hfg => findAlike_ok hfg.upvalueCount

/-- An instruction with a constant is listed alike. -/
theorem Heaps.constantLine (hp : p.Heaps h h') (hcd : p.Chunks c d) (i : Instr) (index : UInt16) :
    FindAlike (· = ·) (c.constantLine h i index) (d.constantLine h' i index) :=
  (hp.constantText hcd index).bind fun _ _ hst => findAlike_ok (by rw [hst])

/-- An instruction that calls a method is listed alike. -/
theorem Heaps.invokeLine (hp : p.Heaps h h') (hcd : p.Chunks c d) (i : Instr) (name : UInt16)
    (count : UInt8) : FindAlike (· = ·) (c.invokeLine h i name count) (d.invokeLine h' i name count) :=
  (hp.constantText hcd name).bind fun _ _ hst => findAlike_ok (by rw [hst])

/-- An operation is listed alike, whatever its operands are. -/
theorem Heaps.operation (hp : p.Heaps h h') (hcd : p.Chunks c d) (offset : Nat) (word : UInt32) :
    FindAlike (· = ·) (c.operation h offset word) (d.operation h' offset word) := by
  unfold Chunk.operation
  cases Instr.decode? word with
  | none => exact findAlike_ok rfl
  | some i =>
    cases i with
    | constant k | getGlobal k | defineGlobal k | setGlobal k | getProperty k | setProperty k
    | getSuper k | class_ k | method k =>
      exact (hp.constantLine hcd _ k).bind fun _ _ hst => findAlike_ok (by rw [hst])
    | invoke k n | superInvoke k n =>
      exact (hp.invokeLine hcd _ k n).bind fun _ _ hst => findAlike_ok (by rw [hst])
    | closure k =>
      refine (hp.constantText hcd k).bind fun _ _ hst => ?_
      refine (hp.captureCount hcd k).bind fun _ _ hcount => findAlike_ok ?_
      rw [hst, hcount, Chunk.captureLines, Chunk.captureLines, hcd.code]
    | _ => exact findAlike_ok rfl

/-- The line column of corresponding chunks with the same lines. -/
theorem Chunks.lineColumn (hcd : p.Chunks c d) (hl : p.terms.sameLines) (offset : Nat) :
    c.lineColumn offset = d.lineColumn offset := by
  have hline (i : Nat) : c.lineAt i = d.lineAt i := by rw [Chunk.lineAt, Chunk.lineAt, hcd.lines hl]
  rw [Chunk.lineColumn, Chunk.lineColumn, hline, hline]

/-- An instruction is listed alike with its line. -/
theorem Heaps.listInstr (hp : p.Heaps h h') (hcd : p.Chunks c d) (hl : p.terms.sameLines)
    (offset : Nat) : FindAlike (· = ·) (c.listInstr h offset) (d.listInstr h' offset) := by
  unfold Chunk.listInstr
  rw [hcd.code]
  cases d.code[offset]? with
  | none => exact fun _ _ ha => nomatch ha
  | some word =>
    exact (hp.operation hcd offset word).bind fun _ _ hst => findAlike_ok (by
      rw [hst, hcd.lineColumn hl])

/-- Code is listed alike, by induction on the words that may be left. -/
theorem Heaps.listFrom (hp : p.Heaps h h') (hcd : p.Chunks c d) (hl : p.terms.sameLines) (fuel : Nat)
    (offset : Nat) (text : String) :
    FindAlike (· = ·) (c.listFrom h fuel offset text) (d.listFrom h' fuel offset text) := by
  induction fuel generalizing offset text with
  | zero => exact findAlike_ok rfl
  | succ fuel ih =>
    rw [Chunk.listFrom, Chunk.listFrom, hcd.code]
    split
    · exact (hp.listInstr hcd hl offset).bind fun _ _ hst => hst ▸ ih _ _
    · exact findAlike_ok rfl

/-- Paired code has the same listing. -/
theorem Heaps.listing (hp : p.Heaps h h') (hcd : p.Chunks c d) (hl : p.terms.sameLines)
    (title : String) : FindAlike (· = ·) (c.listing h title) (d.listing h' title) := by
  rw [Chunk.listing, Chunk.listing, hcd.code]
  exact hp.listFrom hcd hl _ _ _

/-! ### The functions of a script -/

/-- What is picked from corresponding values is paired, if it is so for each. -/
theorem findAlike_filterMapM {f g : Value → Except Fault (Option Handle)} {vs ws : List Value}
    (hvw : List.Forall₂ p.Values vs ws)
    (hf : ∀ v w, p.Values v w → FindAlike (Option.Rel p.Pairs) (f v) (g w)) :
    FindAlike (List.Forall₂ p.Pairs) (vs.filterMapM f) (ws.filterMapM g) := by
  induction hvw with
  | nil => exact findAlike_ok .nil
  | cons hvw _ ih =>
    rw [List.filterMapM_cons, List.filterMapM_cons]
    refine (hf _ _ hvw).bind fun a b hab => ?_
    cases hab with
    | none => exact ih
    | some hab => exact ih.bind fun _ _ hrest => findAlike_ok (.cons hab hrest)

/-- Corresponding functions, and those among their constants, are listed alike. -/
theorem Heaps.listFunctions (hp : p.Heaps h h') (hl : p.terms.sameLines) (fuel : Nat)
    {waiting waiting' : List Handle} (hw : List.Forall₂ p.Pairs waiting waiting') (text : String) :
    FindAlike (· = ·) (Machine.listFunctions h fuel waiting text)
      (Machine.listFunctions h' fuel waiting' text) := by
  induction fuel generalizing waiting waiting' text with
  | zero => exact findAlike_ok rfl
  | succ fuel ih =>
    cases hw with
    | nil => exact findAlike_ok rfl
    | @cons x y waiting waiting' hxy hw =>
      rw [Machine.listFunctions, Machine.listFunctions]
      refine (hp.prototype hxy).bind fun f g hfg => ?_
      -- whatever the title is, the same functions wait after this listing
      have hrest (title : String) : FindAlike (· = ·)
          (do
            let listing ← f.chunk.listing h title
            let nested ← f.chunk.constants.toList.filterMapM fun v => do
              let kind ← h.kind? v
              return if kind = some .function then v.toHandle? else none
            Machine.listFunctions h fuel (waiting ++ nested) (text ++ listing))
          (do
            let listing ← g.chunk.listing h' title
            let nested ← g.chunk.constants.toList.filterMapM fun v => do
              let kind ← h'.kind? v
              return if kind = some .function then v.toHandle? else none
            Machine.listFunctions h' fuel (waiting' ++ nested) (text ++ listing)) := by
        refine (hp.listing hfg.chunk hl title).bind fun s t hst => ?_
        refine (findAlike_filterMapM hfg.chunk.constants fun v w hvw => ?_).bind
          fun _ _ hnested => hst ▸ ih (List.rel_append hw hnested) _
        refine (hp.kind? hvw).bind fun _ _ hkind => findAlike_ok ?_
        rw [hkind]
        split
        · exact hvw.toHandle?
        · exact .none
      have hname := hfg.name
      dsimp only
      generalize f.name = name at hname
      generalize g.name = name' at hname
      cases hname with
      | none => exact hrest _
      | some hname =>
        refine (hp.string hname).bind fun s t hst => ?_
        rw [hst]
        exact hrest _

end ScriptMachine.Pairing

namespace ScriptMachine

namespace Exec

open Pairing

variable {γ δ : Type} {p : Pairing} {m n : Machine} {x y : Handle}
  {T : Pairing → γ → δ → Machine → Machine → Prop}

/-- Paired functions are entered alike. -/
theorem agree_enter (hp : p.terms.Exact) (hm : p.Machines m n) (hxy : p.Pairs x y) :
    Agree p Any (enter x m) (enter y n) := by
  refine (agree_push hm (.reference hxy)).andThen fun _ _ m n hm => ?_
  have hobject : p.Objects (.closure ⟨x, #[]⟩) (.closure ⟨y, #[]⟩) := .closure hxy .nil
  refine (agree_alloc hm hobject nofun nofun).bind fun q r r' m n hterms hm hg => ?_
  refine agree_drop hm fun m n hm => ?_
  exact (agree_push hm (.reference hg.pair)).andThen fun _ _ _ _ hm =>
    agree_callClosure hm hg.pair (hterms ▸ hp.above)

/-! ### Reports -/

/-- Paired frames are traced alike. -/
theorem agree_traceEntry {f g : Frame} {k : TraceEntry → Exec γ} {k' : TraceEntry → Exec δ}
    {i : Nat} (hp : p.terms.Exact) (hm : p.Machines m n) (hf : f ∈ m.frames) (hg : g ∈ n.frames)
    (hfg : p.Frames i f g) (hk : ∀ e, Agree p T (k e m) (k' e n)) :
    Agree p T ((traceEntry f >>= k) m) ((traceEntry g >>= k') n) := by
  obtain ⟨hclosures, hip, -⟩ := hfg.pair hp.above
  have hline : f.chunk.lineAt (f.ip - 1) = g.chunk.lineAt (g.ip - 1) := by
    rw [Chunk.lineAt, Chunk.lineAt, (hm.chunks hf hg hclosures).lines hp.lines, hip]
  simp only [traceEntry, bind_assoc]
  refine agree_readHeap (hm.heaps.finds hclosures Heap.object?_of_closure) fun c d _ _ hcd => ?_
  cases hcd with
  | closure function _ =>
    refine agree_readHeap (hm.heaps.prototype function) fun a b _ _ hab => ?_
    have hname := hab.name
    rw [hline]
    generalize a.name = name at hname
    generalize b.name = name' at hname
    cases hname with
    | none => exact hk _
    | some hname =>
      dsimp only
      rw [bind_assoc, bind_assoc]
      exact agree_textOf hm hname fun s => hk _

/-- The traces of corresponding frames are the same. -/
theorem agree_trace {fs gs : List Frame} {k : List TraceEntry → Exec γ}
    {k' : List TraceEntry → Exec δ} (hp : p.terms.Exact) (hm : p.Machines m n)
    (hf : ∀ f ∈ fs, f ∈ m.frames) (hg : ∀ g ∈ gs, g ∈ n.frames)
    (hfg : List.Forall₂ (fun f g => ∃ i, p.Frames i f g) fs gs)
    (hk : ∀ es, Agree p T (k es m) (k' es n)) :
    Agree p T ((fs.mapM traceEntry >>= k) m) ((gs.mapM traceEntry >>= k') n) := by
  induction hfg generalizing k k' with
  | nil => exact hk []
  | cons hfg _ ih =>
    obtain ⟨i, hfg⟩ := hfg
    obtain ⟨hf, hfs⟩ := List.forall_mem_cons.mp hf
    obtain ⟨hg, hgs⟩ := List.forall_mem_cons.mp hg
    simp only [List.mapM_cons, bind_assoc, pure_bind]
    exact agree_traceEntry hp hm hf hg hfg fun e => ih hfs hgs fun es => hk (e :: es)

/-- An error is reported alike, and no function is active afterwards. -/
theorem agree_failure {e : RuntimeError} (hp : p.terms.Exact) (hm : p.Machines m n) :
    Agree p (fun _ a b _ _ => a = b) (failure e m) (failure e n) := by
  have hframes : List.Forall₂ (fun f g => ∃ i, p.Frames i f g) m.frames.toList.reverse
      n.frames.toList.reverse :=
    List.rel_reverse (hm.frames.toList fun i _ _ hfg => ⟨i, hfg⟩)
  refine agree_trace hp hm (fun f hf => Array.mem_toList_iff.mp (List.mem_reverse.mp hf))
    (fun g hg => Array.mem_toList_iff.mp (List.mem_reverse.mp hg)) hframes fun trace => ?_
  have hnoted (text : Unit → String) : p.Machines { m with heap := m.heap.note .debug text }
      { n with heap := n.heap.note .debug text } :=
    hm.alike (Heap.alike_note _ _ _) (Heap.alike_note _ _ _)
  refine (agree_closeUpvalues (hnoted _)).andThen fun _ _ m n hm => .ok rfl ?_ rfl
  exact { hm with
    stack := alongside_empty
    frames := alongside_empty
    runs := fun f hf => absurd hf (Array.not_mem_empty f)
    runs' := fun f hf => absurd hf (Array.not_mem_empty f)
    starts := fun _ he => by cases hp.whole.symm.trans he
    starts' := fun _ he => by cases hp.whole.symm.trans he }

end Exec

namespace Pairing

variable {p q : Pairing} {m n : Machine}

/-! ### Outcomes -/

/-- The same came of both machines, which correspond, or one of them met a fault. -/
inductive SameEnd (p : Pairing) : Outcome × Machine → Outcome × Machine → Prop
  | same {q : Pairing} {o : Outcome} {m n : Machine} (terms : q.terms = p.terms)
    (machines : q.Machines m n) : SameEnd p (o, m) (o, n)
  | faultLeft {f : Fault} {m : Machine} {r : Outcome × Machine} : SameEnd p (.fault f, m) r
  | faultRight {f : Fault} {n : Machine} {r : Outcome × Machine} : SameEnd p r (.fault f, n)

/-- Only the terms are kept of the pairing at the start. -/
theorem SameEnd.of_terms {r r' : Outcome × Machine} (h : SameEnd q r r')
    (hterms : q.terms = p.terms) : SameEnd p r r' := by
  cases h with
  | same terms machines => exact .same (terms.trans hterms) machines
  | faultLeft => exact .faultLeft
  | faultRight => exact .faultRight

/-- An error is reported alike, and the machines are reset. -/
theorem Machines.settle (hp : p.terms.Exact) (hm : p.Machines m n) (e : RuntimeError) :
    SameEnd p (m.settle (.error e)) (n.settle (.error e)) := by
  have hfailure := Exec.agree_failure (e := e) hp hm
  rw [Machine.settle, Machine.settle]
  generalize Exec.failure e m = r at hfailure
  generalize Exec.failure e n = r' at hfailure
  cases hfailure with
  | ok terms machines answers => exact answers ▸ .same terms machines
  | error terms machines => exact .same terms machines
  | faultLeft => exact .faultLeft
  | faultRight => exact .faultRight

/-- Corresponding machines go on to the same end. -/
theorem Machines.resume (hp : p.terms.Exact) (hm : p.Machines m n) (fuel : Nat) :
    SameEnd p (m.resume fuel) (n.resume fuel) := by
  have hrun := Exec.agree_run fuel hm hp.whole
  rw [Machine.resume, Machine.resume]
  generalize Exec.run fuel m = r at hrun
  generalize Exec.run fuel n = r' at hrun
  cases hrun with
  | @ok q a b _ _ terms machines answers =>
    obtain rfl : a = b := answers
    cases a with
    | finished => exact .same terms machines
    | running => exact .same terms machines
  | error terms machines => exact (machines.settle (terms ▸ hp) _).of_terms terms
  | faultLeft => exact .faultLeft
  | faultRight => exact .faultRight

/-! ### Compiling -/

/-- Compiling came to corresponding scripts or to the same errors on corresponding machines, or one
of them met a fault. -/
inductive SameCompiled (p : Pairing) : Compile.Result × Machine → Compile.Result × Machine → Prop
  | function {q : Pairing} {r r' : Handle} {m n : Machine} (terms : q.terms = p.terms)
    (machines : q.Machines m n) (scripts : q.Pairs r r') :
    SameCompiled p (.function r, m) (.function r', n)
  | errors {q : Pairing} {es : List CompileError} {m n : Machine}
    (terms : q.terms = p.terms) (machines : q.Machines m n) :
    SameCompiled p (.errors es, m) (.errors es, n)
  | faultLeft {f : Fault} {m : Machine} {r : Compile.Result × Machine} :
    SameCompiled p (.fault f, m) r
  | faultRight {f : Fault} {n : Machine} {r : Compile.Result × Machine} :
    SameCompiled p r (.fault f, n)

/-- The same source is compiled alike. -/
theorem Machines.compile (hp : p.terms.Exact) (hm : p.Machines m n) (source : String) :
    SameCompiled p (m.compile source) (n.compile source) := by
  have hcovers := hm.covers
  have hcovers' := hm.symm.covers
  have hspec := Compile.compile_spec source hm.heaps.left hcovers
  have hspec' := Compile.compile_spec source hm.heaps.right hcovers'
  have hsame := Compile.compile_alike source hm.heaps hp.functions
    (fun _ => hm.exists_root hp.whole) fun y hy => hm.symm.exists_root hp.symm.whole hy
  rw [Machine.compile_eq, Machine.compile_eq]
  generalize Compile.compile source m.heap m.roots = made at hspec hsame
  generalize Compile.compile source n.heap n.roots = made' at hspec' hsame
  cases hsame with
  | function terms heaps pairs functions =>
    exact .function terms (hm.carry heaps terms (fun x y hxy hx _ => pairs x y hxy hx) hspec.1.kept
      hspec'.1.kept) functions
  | errors terms heaps pairs =>
    exact .errors terms (hm.carry heaps terms (fun x y hxy hx _ => pairs x y hxy hx) hspec.kept
      hspec'.kept)
  | faultLeft => exact .faultLeft
  | faultRight => exact .faultRight

/-- The same source is loaded alike. -/
theorem Machines.load (hp : p.terms.Exact) (hm : p.Machines m n) (source : String) :
    SameEnd p (m.load source) (n.load source) := by
  have hcompiled := hm.compile hp source
  rw [Machine.load, Machine.load]
  generalize m.compile source = made at hcompiled
  generalize n.compile source = made' at hcompiled
  cases hcompiled with
  | @function q r r' m n terms machines scripts =>
    have henter := Exec.agree_enter (terms ▸ hp) machines scripts
    dsimp only
    generalize Exec.enter r m = done at henter
    generalize Exec.enter r' n = done' at henter
    cases henter with
    | ok terms' machines => exact .same (terms'.trans terms) machines
    | error terms' machines =>
      exact (machines.settle (terms' ▸ terms ▸ hp) _).of_terms (terms'.trans terms)
    | faultLeft => exact .faultLeft
    | faultRight => exact .faultRight
  | errors terms machines => exact .same terms machines
  | faultLeft => exact .faultLeft
  | faultRight => exact .faultRight

/-! ### Running in slices -/

/-- Slices of a run end alike, by induction on them. -/
theorem Machines.runSlices (hp : p.terms.Exact) (hm : p.Machines m n) (slices : List (Float × Nat)) :
    SameEnd p (m.runSlices slices) (n.runSlices slices) := by
  induction slices generalizing p m n with
  | nil => exact .same rfl hm
  | cons slice rest ih =>
    obtain ⟨now, fuel⟩ := slice
    have hticked : p.Machines { m with clock := now } { n with clock := now } :=
      { hm with clock := rfl }
    have hresume := hticked.resume hp fuel
    rw [Machine.runSlices, Machine.runSlices]
    generalize { m with clock := now }.resume fuel = done at hresume
    generalize { n with clock := now }.resume fuel = done' at hresume
    cases hresume with
    | @same q o m n terms machines =>
      cases o with
      | unfinished => exact (ih (terms ▸ hp) machines).of_terms terms
      | _ => exact .same terms machines
    | faultLeft => exact .faultLeft
    | faultRight => exact .faultRight

/-- The same source is run alike, in whatever slices. -/
theorem Machines.interpretSlices (hp : p.terms.Exact) (hm : p.Machines m n) (source : String)
    (slices : List (Float × Nat)) :
    SameEnd p (m.interpretSlices source slices) (n.interpretSlices source slices) := by
  have hload := hm.load hp source
  rw [Machine.interpretSlices, Machine.interpretSlices]
  generalize m.load source = loaded at hload
  generalize n.load source = loaded' at hload
  cases hload with
  | @same q o m n terms machines =>
    cases o with
    | unfinished => exact (machines.runSlices (terms ▸ hp) slices).of_terms terms
    | _ => exact .same terms machines
  | faultLeft => exact .faultLeft
  | faultRight => exact .faultRight

end Pairing

end ScriptMachine
