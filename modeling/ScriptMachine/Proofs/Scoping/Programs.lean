import ScriptMachine.Proofs.Scoping.Emitting
import ScriptMachine.Proofs.Scoping.Statements
import ScriptMachine.Proofs.Session.Safety

/-!
# Every name of a program is found from its scope

The function of a script that compiles has the code of a tree of its source, and so have the
functions that its constants lead to. Each instruction on a variable is the one for where the
variable is kept that the name stands for in its scope, the slot of a visible local is where its
value is in the part of the stack that belongs to the function, and a local is closed at the end of
its scope if a nested function captured it, else dropped.
-/

namespace ScriptMachine

open Compile

/-- The function `r` has the code of a script with a source. -/
def Heap.Scripts (h : Heap) (source : String) (r : Handle) : Prop :=
  ∃ (body : List Stmt) (f : Prototype) (ws : List UInt32) (scope : Scope),
    Spells body (sourceTokens source) ∧ h.object? r = some (.function f) ∧
      Stmt.ListCodes ⟨h, .script, f.chunk.constants.toList, [], []⟩ (.start .script []) false body
        ws scope ∧
      f.chunk.code.toList = ws ++ FunctionKind.finalReturn .script

namespace Compile

variable {source : String} {heap : Heap} {outer : List Handle}

/-- Compiling starts between two steps. -/
theorem steady_start (hs : heap.Sound) (hc : heap.Covers outer) :
    (State.start source heap outer).Steady heap where
  live := live_start hs hc
  tidy := by
    intro d hd
    obtain rfl := List.mem_singleton.mp hd
    refine ⟨Draft.pooled_start _ _, ?_, ?_, ?_⟩
    · simp [State.start, Draft.start, maxLocals]
    · simp [State.start, Draft.start]
    · simp [State.start, Draft.start]
  settled := by simp [State.start, Draft.start, Settled]
  around := by simp [State.start]
  marks := .nil

/-- A script starts at rest. -/
theorem rests_start : (State.start source heap outer).site.Rests := by
  intro l hl
  obtain rfl := List.mem_singleton.mp hl
  exact ⟨0, Nat.le_refl 0, rfl⟩

/-- The function of a script that compiles is what its draft was after the statements of a tree of
the source, but for the final return. It lists nothing twice. -/
theorem translated_of_compile {h : Heap} {r : Handle} (hs : heap.Sound) (hc : heap.Covers outer)
    (hdone : compile source heap outer = (.function r, h)) : ∃ body s f,
      Spells body (sourceTokens source) ∧
      Stmt.listTranslate body (State.start source heap outer) = .ok () s ∧
      h.object? r = some (.function f) ∧
      Body.Completes ⟨h, .script, f.chunk.constants.toList, [], []⟩ s ∧
      f.chunk.code.toList = s.draft.chunk.code.toList ++ FunctionKind.finalReturn .script ∧
      Body.Orderly ⟨h, .script, f.chunk.constants.toList, [], []⟩ := by
  obtain ⟨body, s, hspells, htranslated, rfl, -⟩ := compile_reads hdone
  obtain ⟨_, s₁, hbody, hreturns⟩ := run_bind.mp htranslated
  obtain ⟨_, s₂, hreturn, hfinishes⟩ := run_bind.mp hreturns
  obtain ⟨made, s₃, hfinish, hmade⟩ := run_bind.mp hfinishes
  obtain ⟨rfl, rfl⟩ := run_pure.mp hmade
  obtain ⟨ws, hadds, -⟩ := scripts_of_acts (fun t ht => t.acts (hspells.grammatical.mem ht)) _
    (State.start source heap outer) _ s₁ (steady_start hs hc) rfl rests_start hbody
  obtain ⟨ws', hadds', hws'⟩ := makes_emitReturn (P := fun _ => True) s₁ _ s₂ hadds.steady rfl
    trivial hreturn
  obtain ⟨hlive, hcaptures, h₁, h', ha, -, rfl, halloc⟩ :=
    (does_finishFunction hadds'.steady.live).run hfinish
  have hall := hadds.trans hadds'
  have hobject : (s₂.popped h').heap.object? made.1 = some (.function s₂.draft.prototype) := by
    rw [State.popped_heap]
    exact halloc.new
  -- there is no function around whose variables a script could capture
  have hnone : s₂.enclosing = [] := hall.enclosing.nil_inv
  have hcaptureless : s₂.draft.captures.toList = [] := by
    obtain ⟨f, hf, hscript⟩ := (isProgram_of_compile hs hc hdone).script
    obtain rfl := Object.function.inj (Option.some.inj (hf.symm.trans hobject))
    exact List.eq_nil_of_length_eq_zero hscript.upvalueCount
  have hcompletes : Body.Completes ⟨(s₂.popped h').heap, .script,
      s₂.draft.chunk.constants.toList, [], []⟩ s₂ := by
    refine ⟨hall.kind.symm, List.prefix_rfl, hcaptureless ▸ List.prefix_rfl, ?_, fun x hx => ?_⟩
    · rw [hnone]
      exact .nil
    · rw [State.popped_heap, halloc.kept x, ha.object?]
      rw [Heap.reachable_congr fun y _ => ha.object? y]
      exact hx.mono fun y hy => State.mem_finished.mpr hy
  obtain ⟨-, rfl⟩ := hws' _ hcompletes
  have htidy := hadds'.steady.tidy s₂.draft List.mem_cons_self
  exact ⟨body, s₁, _, hspells, hbody, hobject, hadds'.completes hcompletes, hadds'.code, hlive.sound,
    htidy.pooled.nodup, htidy.pooled.few, .nil, List.forall_mem_nil _⟩

/-- A script that compiles has the code of a tree of its source. -/
theorem scripts_of_compile {h : Heap} {r : Handle} (hs : heap.Sound) (hc : heap.Covers outer)
    (hdone : compile source heap outer = (.function r, h)) : h.Scripts source r := by
  obtain ⟨body, s, f, hspells, hbody, hobject, hcompletes, hcode, -⟩ :=
    translated_of_compile hs hc hdone
  obtain ⟨ws, hadds, hws⟩ := scripts_of_acts (fun t ht => t.acts (hspells.grammatical.mem ht)) _
    (State.start source heap outer) _ s (steady_start hs hc) rfl rests_start hbody
  obtain ⟨-, hcodes⟩ := hws _ hcompletes
  rw [hadds.code] at hcode
  exact ⟨body, f, ws, _, hspells, hobject, hcodes, hcode⟩

end Compile

namespace Machine

/-- Whatever compiles in a session, or on a heap without objects, has the code of a tree of its
source, in which every name is found from the scope where it stands. -/
theorem compiled_names_found (settings : Settings) (journal : Journal) (sink : Sink) :
    (∀ m, Reached settings journal sink .resting m → ∀ source r m',
      m.compile source = (.function r, m') → m'.heap.Scripts source r) ∧
    ∀ source r h, Compile.compile source (Heap.empty settings.pacing journal) [] =
      (.function r, h) → h.Scripts source r := by
  refine ⟨fun m hm source r m' hdone => ?_, fun source r h hdone => ?_⟩
  · obtain ⟨W, O, hshows⟩ := hm.inPhase.shows
    obtain ⟨hresult, rfl⟩ := Prod.mk.inj hdone
    exact Compile.scripts_of_compile hshows.sound (hshows.covers hshows.lists)
      (Prod.ext hresult rfl)
  · exact Compile.scripts_of_compile (Heap.sound_empty settings.pacing journal)
      (fun x hx => absurd hx Heap.not_reachable_nil) hdone

/-- A function that captures a local of the block around it. -/
theorem captured_local_found : ∃ r h,
    Compile.compile "{ let a = null; def f() { print a; } }"
      (Heap.empty Pacing.standard Journal.off) [] = (.function r, h) ∧
    h.Scripts "{ let a = null; def f() { print a; } }" r := by
  have hcompiles : (function? (Compile.compile "{ let a = null; def f() { print a; } }"
      (Heap.empty Pacing.standard Journal.off) []).1).isSome = true := by decide +kernel
  obtain ⟨r, h, hdone⟩ : ∃ r h, Compile.compile "{ let a = null; def f() { print a; } }"
      (Heap.empty Pacing.standard Journal.off) [] = (.function r, h) := by
    generalize Compile.compile "{ let a = null; def f() { print a; } }"
      (Heap.empty Pacing.standard Journal.off) [] = made at hcompiles
    obtain ⟨result, h⟩ := made
    cases result with
    | function r => exact ⟨r, h, rfl⟩
    | _ => cases hcompiles
  exact ⟨r, h, hdone, (compiled_names_found Settings.standard Journal.off Sink.unlimited).2 _ r h
    hdone⟩

end Machine

end ScriptMachine
