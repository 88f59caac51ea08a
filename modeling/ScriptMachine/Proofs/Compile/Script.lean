import ScriptMachine.Compile.Script
import ScriptMachine.Proofs.Compile.Classes
import ScriptMachine.Proofs.Compile.Loops
import ScriptMachine.Proofs.Token.Places

/-!
# Compiling a script

Every form of statement leaves the stack as it was, if the statements and expressions nested in
it do what they should. A declaration that fails is reported; what was compiled until then does
not matter, because a script with an error has no function.

Tying the forms together level by level, every declaration, statement and expression does what
it should at every depth of nesting. So the compiler keeps the heap sound and its caller's
objects alive whatever the source is, and a source without errors becomes a function whose code
is well formed and that leads to such functions only.
-/

namespace ScriptMachine.Compile

variable {W W' : World} {s s' : State} {before heap : Heap} {body : Compiler Unit} {e : CompileError}
  {inner : Parsers}

/-! ### Forms of statements -/

/-- A print statement leaves the height. -/
theorem executes_print (hn : Nests before inner.expression) :
    Executes before (printStatement inner) :=
  Turns.executes ((hn.push _ []).bind fun _ => turns_expect.bind fun _ =>
    turns_plain 1 0 0 fun _ => .print)

/-- An expression statement leaves the height. -/
theorem executes_expression (hn : Nests before inner.expression) :
    Executes before (expressionStatement inner) :=
  Turns.executes ((hn.push _ []).bind fun _ => turns_expect.bind fun _ =>
    turns_plain 1 0 0 fun _ => .pop)

/-- A block leaves the height: its locals leave at its end. -/
theorem executes_block (hd : Declares before inner.declaration) :
    Executes before (blockStatement inner) := (declares_block hd).scoped

/-- A conditional statement leaves the height, if its branches do. -/
theorem executes_if (hn : Nests before inner.expression) (hs : Executes before inner.statement) :
    Executes before (ifStatement inner) := by
  have hother : Executes before (do
      if ← acceptKeyword .else_ then inner.statement : Compiler Unit) := by
    refine (executes_of_reads fun _ => does_acceptKeyword).bind fun otherwise => ?_
    cases otherwise with
    | true => exact hs
    | false => exact executes_of_reads fun _ => does_pure_reads
  have hbranch := (writes_branch (writes_dropThen hs) (writes_dropThen hother)).inhabited
  have hcondition : Writes before AllSettled (condition inner .ifOpen) fun _ => Whole [] [.value] :=
    Through.whole_of (writes_condition hn).always
  have hsplit : ifStatement inner = condition inner .ifOpen >>= fun _ => (do
      let otherwise ← emitJump .jumpIfFalse
      emit .pop >>= fun _ => inner.statement
      let stop ← emitJump .jump
      patchJump otherwise
      emit .pop >>= fun _ => (do
        if ← acceptKeyword .else_ then inner.statement)
      patchJump stop) := by
    unfold ifStatement
    simp only [bind_assoc]
    refine bind_congr fun _ => bind_congr fun _ => bind_congr fun _ => bind_congr fun _ => ?_
    refine bind_congr fun _ => bind_congr fun _ => bind_congr fun _ => bind_congr fun found => ?_
    cases found <;> simp
  rw [hsplit]
  refine hcondition.bind (S := fun _ => Whole [] []) (fun _ => hbranch) ?_
  rintro _ _ V v w hv ⟨hne, yes, no, hnear, hnear', hyes, hno, rfl⟩
  exact Fragment.append hv (.branch hne hyes hno hnear hnear')

/-- A return of null or of slot zero leads nowhere, so the stack after it may be pictured as any
other. -/
theorem executes_emitReturn : Executes before emitReturn := by
  refine fun s hl => (does_emitReturn hl).imp fun _ s' _ _ h W hr _ _ => ?_
  obtain ⟨last, hlast, lines, hlines, rfl⟩ := h
  have he : Carries before W W s _ [last.encode, Instr.return_.encode] := carries_return hr hlines
  refine ⟨W, _, he, fun V hV => ?_⟩
  have hne := he.ready.slots_ne_nil hV
  obtain ⟨T, hT, heffect⟩ := effect_of_finalAnswer (Γ := V.context) hne hlast
  show Fragment V.context (.plain (V.slots ++ [])) _ (.plain (V.slots ++ []))
  rw [List.append_nil]
  exact (Fragment.instr heffect).append ((Fragment.nil (Shape.fits_plain hT)).append
    (.return_ (g := none) hne))

/-- A return of the value on top. -/
theorem writes_return {K : World → State → Prop} :
    Writes before K (emit .return_) fun _ => Whole [.value] [] := by
  refine fun s hl => (does_emit hl).imp fun _ s' _ _ he W hr _ _ => ⟨W, _, he.carries hr, ?_⟩
  have hc : Carries before W W s s' [Instr.return_.encode] := he.carries hr
  intro V hV
  exact .return_ (hc.ready.slots_ne_nil hV)

/-- A return statement leaves no height to go on with. -/
theorem executes_return (hn : Nests before inner.expression) :
    Executes before (returnStatement inner) := by
  refine Writes.after_reads (fun _ => does_look_reads) fun kind => ?_
  have hend : Writes before AllSettled (do
      if kind = .initializer then
        emit .pop
        emitReturn
      else emit .return_ : Compiler Unit) fun _ => Whole [.value] [] := by
    split
    · exact writes_dropThen executes_emitReturn
    · exact writes_return
  have hvalue : Writes before AllSettled (do
      inner.expression .assignment
      expect .semicolon .returnEnd) fun _ => Whole [] [.value] :=
    Through.whole_of ((hn.push _ []).bind fun _ => turns_expect)
  have hrest : Executes before (do
      if ← accept .semicolon then emitReturn
      else
        expression inner
        expect .semicolon .returnEnd
        if kind = .initializer then
          emit .pop
          emitReturn
        else emit .return_ : Compiler Unit) := by
    refine (executes_of_reads fun _ => does_accept).bind fun empty => ?_
    cases empty with
    | true => exact executes_emitReturn
    | false =>
      have h := hvalue.bind (S := fun _ => Whole [] []) (fun _ => hend)
        fun _ _ _ _ _ => Fragment.append
      simpa only [Executes, expression, bind_assoc, Bool.false_eq_true, if_false] using h
  by_cases hkind : kind = .script
  · simp only [if_pos hkind]
    exact Executes.bind writes_failBefore fun _ => hrest
  · simp only [if_neg hkind]
    exact hrest

/-- A statement leaves the stack as it was. -/
theorem executes_statementBody (hd : Declares before inner.declaration)
    (hs : Executes before inner.statement) (hn : Nests before inner.expression) :
    Executes before (statementBody inner) := by
  have hadvance {x : Compiler Unit} (hx : Executes before x) : Executes before (advance *> x) := by
    rw [seqRight_eq_bind]
    exact (executes_of_reads fun _ => does_advance).bind fun _ => hx
  refine (executes_of_reads fun _ => does_look_reads).bind fun token => ?_
  split
  · exact hadvance (executes_print hn)
  · exact hadvance (executes_if hn hs)
  · exact hadvance (executes_while hn hs)
  · exact hadvance (executes_doWhile hn hs)
  · exact hadvance (executes_for hn hs)
  · exact hadvance (executes_return hn)
  · exact hadvance (executes_block hd)
  · exact executes_expression hn

/-- A declaration may leave a new local. -/
theorem declares_declarationBody (hd : Declares before inner.declaration)
    (hs : Executes before inner.statement) (hn : Nests before inner.expression) :
    Declares before (declarationBody inner) := by
  refine (executes_of_reads fun _ => does_acceptKeyword).declares.bind fun isClass => ?_
  cases isClass with
  | true => exact declares_class hd
  | false =>
    refine (executes_of_reads fun _ => does_acceptKeyword).declares.bind fun isFunction => ?_
    cases isFunction with
    | true => exact declares_function hd
    | false =>
      refine (executes_of_reads fun _ => does_acceptKeyword).declares.bind fun isVariable => ?_
      cases isVariable with
      | true => exact declares_let hn
      | false => exact hs.declares

/-! ### Going on after errors -/

/-- What is kept was there. -/
theorem mem_of_mem_keepLast {α : Type} {n : Nat} {xs : List α} {x : α} (h : x ∈ keepLast n xs) :
    x ∈ xs := List.mem_of_mem_drop h

/-- The outermost drafts are drafts. -/
theorem State.mem_keepDrafts {n : Nat} {d : Draft} (h : d ∈ (s.keepDrafts n).drafts) :
    d ∈ s.drafts := by
  unfold keepDrafts at h
  split at h
  · exact h
  · next draft enclosing heq =>
    have hd : d ∈ draft :: enclosing := h
    rw [← heq] at hd
    exact mem_of_mem_keepLast hd

/-- Only the functions in the making are given up. -/
theorem State.keepDrafts_eq (s : State) (n : Nat) :
    ∃ draft enclosing, s.keepDrafts n = { s with draft := draft, enclosing := enclosing } := by
  unfold keepDrafts
  split
  · exact ⟨s.draft, s.enclosing, rfl⟩
  · exact ⟨_, _, rfl⟩

/-- A report is the one thing about a state that it changes, with an entry of the journal. -/
theorem State.report_eq (s : State) (e : CompileError) : ∃ heap errors, s.heap.Alike heap ∧
    s.errors.size ≤ errors.size ∧ errors ≠ #[] ∧
      s.report e = { s with heap := heap, errors := errors } := by
  unfold report
  have ha : s.heap.Alike (s.heap.note .debug fun _ => s!"compile error: {e.display}") :=
    Heap.alike_note _ _ _
  dsimp only
  split
  · exact ⟨_, _, ha, by simp, by simp, rfl⟩
  · next hfull =>
    refine ⟨_, s.errors, ha, Nat.le_refl _, fun hnone => hfull ?_, rfl⟩
    rw [hnone]
    decide

/-- After an error there is an error, and what is kept alive is less than before. -/
theorem State.Live.recover (e : CompileError) (back : Checkpoint) (hl : s.Live before) :
    (s.recover e back).Live before ∧ s.Later (s.recover e back) ∧ (s.recover e back).errors ≠ #[] := by
  obtain ⟨heap, errors, ha, hsize, hne, hreport⟩ := s.report_eq e
  have hreported : (s.report e).Live before := hreport ▸ hl.change ha rfl
    fun d hd => ⟨d, hd, rfl, fun _ => id⟩
  obtain ⟨draft, enclosing, hkeep⟩ := (s.report e).keepDrafts_eq back.depth
  have hdrafts (d : Draft) (hd : d ∈ draft :: enclosing) : d ∈ (s.report e).drafts := by
    refine State.mem_keepDrafts (n := back.depth) ?_
    rw [hkeep]
    exact hd
  have hrecover : s.recover e back = { s.report e with
      draft := (s.recover e back).draft, enclosing := enclosing
      classes := (s.recover e back).classes, pos := (s.recover e back).pos } := by
    unfold State.recover
    rw [hkeep]
  have hdraft : (s.recover e back).draft = { draft with
      scopeDepth := back.scopeDepth, locals := keepLast back.locals draft.locals } := by
    unfold State.recover
    rw [hkeep]
  refine ⟨?_, ?_, ?_⟩
  · rw [hrecover]
    refine hreported.change (.refl _) rfl fun d hd => ?_
    rcases List.mem_cons.mp hd with rfl | hd
    · exact ⟨draft, hdrafts draft List.mem_cons_self, by rw [hdraft],
        fun r hr => by rwa [hdraft] at hr⟩
    · exact ⟨d, hdrafts d (List.mem_cons_of_mem _ hd), rfl, fun _ => id⟩
  · rw [hrecover, hreport]
    exact ⟨rfl, rfl, hsize⟩
  · rw [hrecover, hreport]
    exact hne

/-- A declaration that is gone on after does not matter if it failed. -/
theorem declares_recovering (hx : Declares before body) : Declares before (recovering body) := by
  intro s hl
  have h := hx s hl
  unfold recovering
  dsimp only
  match hr : body s with
  | .ok a s' =>
    rw [hr] at h
    exact h
  | .error (.problem e) s' =>
    rw [hr] at h
    obtain ⟨hlive, hlater, hne⟩ := h.1.recover e s.checkpoint
    exact .ok hlive (h.2.trans hlater) fun _ _ _ hclean => absurd hclean hne
  | .error (.fault f) s' =>
    rw [hr] at h
    exact h

/-! ### All forms together -/

/-- Parsers whose declarations, statements and expressions do what they should. -/
structure Parses (before : Heap) (inner : Parsers) : Prop where
  declaration : Declares before inner.declaration
  statement : Executes before inner.statement
  expression : Nests before inner.expression

/-- However much room there is for nesting, all forms do what they should. -/
theorem parses_parsers (room : Nat) : Parses before (parsers room) := by
  induction room with
  | zero =>
    exact ⟨declares_recovering (Executes.declares writes_failHere), writes_failHere,
      fun _ => writes_failHere⟩
  | succ room ih =>
    have hdeclaration := declares_declarationBody ih.declaration ih.statement ih.expression
    have hstatement := executes_statementBody ih.declaration ih.statement ih.expression
    exact ⟨declares_recovering hdeclaration.nested, hstatement.nested fun _ _ hs => hs,
      fun _ => (turns_expressionBody ih.expression).nested fun _ _ _ => trivial⟩

/-- A program declares, by induction on how many declarations may follow. -/
theorem declares_program {declaration : Compiler Unit} (hd : Declares before declaration)
    (fuel : Nat) : Declares before (program declaration fuel) := by
  induction fuel with
  | zero => exact (executes_of_reads fun _ => does_pure_reads).declares
  | succ fuel ih =>
    refine (executes_of_reads fun _ => does_look_reads).declares.bind fun done => ?_
    cases done with
    | true => exact (executes_of_reads fun _ => does_pure_reads).declares
    | false => exact hd.bind fun _ => ih

/-! ### Scripts -/

section Script

variable {source : String} {outer : List Handle}

/-- Compiling starts with nothing but the caller's objects alive. -/
theorem live_start (hs : heap.Sound) (hc : heap.Covers outer) :
    (State.start source heap outer).Live heap where
  sound := hs
  covers := by
    refine hc.mono fun r hr => ?_
    simpa [State.roots, State.start, Draft.handles, Draft.start, Chunk.empty] using hr
  named := by simp [State.drafts, State.start, Draft.start]
  kept := fun _ _ => rfl
  made := fun _ _ => .inl
  retains := .refl heap

/-- Compiling starts in order. -/
theorem ready_start (hw : W.Fits heap) (hclean : (State.start source heap outer).errors = #[]) :
    (State.start source heap outer).Ready W where
  fits := hw
  clean := hclean
  tokens := by
    intro l hl
    refine ⟨fun spelling hspelling => ?_⟩
    obtain ⟨hempty, hword⟩ := Token.read_names l hl spelling hspelling
    refine ⟨fun hsuper => ?_, hempty⟩
    rw [hsuper] at hword
    exact absurd hword (by decide)
  drafts := by
    intro d hd
    obtain rfl := List.mem_singleton.mp hd
    refine ⟨?_, ?_, ?_, ?_, Chunk.lined_empty, ?_, ?_, ?_, ?_, ?_⟩
    · simp [State.start, Draft.start]
    · simp [State.start, Draft.start, Chunk.empty]
    · simp [State.start, Draft.start]
    · simp [State.start, Draft.start, Chunk.empty]
    · simp [State.start, Draft.start, maxLocals]
    · simp [State.start, Draft.start]
    · simp [State.start, Draft.start, Settled]
    · simp [State.start, Draft.slots, Draft.start, slotsOf]
    · simp [State.start, Draft.start]
  enclosing := by simp [State.start]
  captures := ⟨by simp [State.start, Draft.start], trivial⟩
  global := fun _ => ⟨rfl, by simp [State.start, Draft.start, FunctionKind.slotZero]⟩
  super := by simp [State.start]
  planted := Heap.Planted.nil

/-- A script is entered with slot zero on the stack. -/
theorem entered_start (hr : (State.start source heap outer).Ready W) :
    Entered heap W W (State.start source heap outer) (State.start source heap outer) where
  ready := hr
  outer := rfl
  classes := rfl
  enclosing := .nil
  kept := fun _ _ _ => id
  settled := by simp [State.start, Draft.start, Settled]
  code := rfl
  entry := ⟨contents_any (by simp [State.start, Draft.start, FunctionKind.slotZero]),
    by simp [State.start, Draft.slots, Draft.start, slotsOf]⟩

/-- The function of a script: it has no name, no parameters and no captured variables. -/
structure IsScript (f : Prototype) : Prop where
  name : f.name = none
  arity : f.arity = 0
  upvalueCount : f.upvalueCount = 0

/-- What is known after a script became the function `r`. -/
structure Scripted (before : Heap) (outer : List Handle) (W W' : World) (r : Handle) (h : Heap) :
    Prop where
  fits : W'.Fits h
  function : W' r = some (.function [])
  object : ∃ f, h.object? r = some (.function f) ∧ IsScript f
  planted : h.Planted [.ofHandle r]
  kept : ∀ x t, before.Reachable outer x → W x = some t → W' x = some t

/-- A script that compiles is a function with code that is well formed. -/
theorem does_script (hl : (State.start source heap outer).Live heap) :
    Does heap (State.start source heap outer) (script (State.start source heap outer))
      fun made s' => ∀ r, made = some r → s'.heap.Covers [r] ∧
        ∀ W, W.Fits heap → ∃ W', Scripted heap outer W W' r s'.heap := by
  refine (does_look (f := State.remaining) (Q := fun _ s' => s' = State.start source heap outer)
    hl rfl).bind fun left s₀ hl₀ _ h₀ => ?_
  subst h₀
  refine (declares_program (parses_parsers (maxNesting + 1)).declaration left _ hl₀).bind
    fun _ s₁ hl₁ hlater₁ hprogram => ?_
  refine (does_emitReturn hl₁).bind fun _ s₂ hl₂ hlater₂ hreturn => ?_
  refine (does_look (f := fun s => s.errors.isEmpty)
    (Q := fun clean s' => s' = s₂ ∧ clean = s₂.errors.isEmpty) hl₂ ⟨rfl, rfl⟩).bind
    fun clean s₂' hl₂' _ h₂ => ?_
  obtain ⟨rfl, hclean⟩ := h₂
  cases clean with
  | false => exact does_pure hl₂' (by simp)
  | true =>
    have hclean₂ : s₂'.errors = #[] := Array.isEmpty_iff.mp hclean.symm
    have hclean₁ := hlater₂.clean hclean₂
    have hclean₀ := hlater₁.clean hclean₁
    refine (does_finishFunction hl₂').bind fun made s₃ hl₃ _ hfinished => ?_
    refine does_pure hl₃ fun r hr => ?_
    obtain rfl := Option.some.inj hr
    refine ⟨hfinished.covers hl₂', fun W hw => ?_⟩
    have hready := ready_start hw hclean₀
    obtain ⟨W₁, code, hextends⟩ := hprogram W hready (entered_start hready).settled hclean₁
    obtain ⟨last, hlast, lines, hlines, rfl⟩ := hreturn
    have hwritten := (entered_start hready).written hextends hlast hlines
    have henclosing := List.forall₂_nil_left_iff.mp hwritten.enclosing
    -- there is no function around whose variables a script could capture
    have hcaptures : s₁.draft.captures = #[] := by
      refine Array.eq_empty_iff_forall_not_mem.mpr fun c hc => ?_
      obtain ⟨d, rest, heq, -⟩ := hwritten.ready.captures.1 c hc
      rw [henclosing] at heq
      cases heq
    obtain ⟨V, hfits, hnew, hgrows⟩ := hfinished.grows hwritten.ready hwritten.code
    obtain ⟨h₁, h', -, -, hpopped, halloc⟩ := hfinished.allocated
    have hheap : s₃.heap = h' := by rw [hpopped, State.popped_heap]
    have hobject := halloc.new
    rw [← hheap] at hobject
    refine ⟨V, hfits, ?_, ⟨_, hobject, ?_, ?_, ?_⟩, ?_, fun x t hx ht => ?_⟩
    · rw [hnew, State.drafts, captureContents_cons]
      simp [State.recode, hcaptures]
    · exact hextends.emits.draft.name
    · exact hextends.emits.draft.arity
    · show s₁.draft.captures.size = 0
      rw [hcaptures]
      rfl
    · exact (hfinished.planted hl₂' hwritten.ready.planted).sublist
        (List.singleton_sublist.mpr List.mem_cons_self)
    · refine hgrows x t ?_ (hwritten.kept x t hx ht)
      exact (hl₂'.reachable (hwritten.outer.symm ▸ hx)).mono fun y hy =>
        State.mem_roots.mpr (.inr hy)

/-- What compiling leaves of a heap: it is sound, the caller's objects are as they were, and only
texts and functions are new. -/
structure Leaves (before : Heap) (outer : List Handle) (h : Heap) : Prop where
  sound : h.Sound
  kept : ∀ x, before.Reachable outer x → h.object? x = before.object? x
  made : ∀ x o, h.object? x = some o → before.object? x = some o ∨ IsCompiled o
  retains : before.Retains [] h

/-- The heap is left as it has to be for the machine. -/
theorem State.Live.leaves {s₀ : State} (hl : s.Live before) (hlater : s₀.Later s) :
    Leaves before s₀.outer s.heap :=
  ⟨hl.sound, fun x hx => hl.kept x (hlater.outer.symm ▸ hx), hl.made, hl.retains⟩

/-- What compiling a source comes to on a sound heap, with `outer` kept alive: a function that is
known, or errors, or an exhausted arena. -/
theorem compile_spec (source : String) (hs : heap.Sound) (hc : heap.Covers outer) :
    match compile source heap outer with
    | (.function r, h') => Leaves heap outer h' ∧ h'.Covers [r] ∧
        ∀ W, W.Fits heap → ∃ W', Scripted heap outer W W' r h'
    | (.errors _, h') => Leaves heap outer h'
    | (.fault f, _) => f = .arenaFull := by
  have hl : (State.start source heap outer).Live heap := live_start hs hc
  have h := does_script hl
  unfold compile
  match hr : script (State.start source heap outer) with
  | .ok (some r) s' =>
    rw [hr] at h
    obtain ⟨hl, hlater, hmade⟩ := h
    obtain ⟨hcovers, hworld⟩ := hmade r rfl
    exact ⟨hl.leaves hlater, hcovers, hworld⟩
  | .ok none s' =>
    rw [hr] at h
    exact h.1.leaves h.2.1
  | .error (.problem e) s' =>
    rw [hr] at h
    exact h.1.leaves h.2
  | .error (.fault f) s' =>
    rw [hr] at h
    exact h

end Script

end ScriptMachine.Compile
