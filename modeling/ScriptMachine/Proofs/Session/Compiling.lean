import ScriptMachine.Machine.Session
import ScriptMachine.Proofs.Code.Listing
import ScriptMachine.Proofs.Compile.Script
import ScriptMachine.Proofs.Machine.Does

/-!
# Compiling in a session

A machine that compiles a source still shows what it showed before, in a world that knows the
script; every function that the script leads to is well formed, and so it can be listed.
-/

namespace ScriptMachine

/-- The script `r` takes no arguments and captures nothing, and it leads to well-formed functions
only. -/
structure Heap.IsProgram (h : Heap) (r : Handle) : Prop where
  script : ∃ f, h.object? r = some (.function f) ∧ Compile.IsScript f
  wellFormed : ∀ x f, h.Reachable [r] x → h.object? x = some (.function f) → f.WellFormed h

/-- Where the script is known, all that it leads to is. -/
theorem Compile.Scripted.isProgram {before h : Heap} {outer : List Handle} {W W' : World}
    {r : Handle} (hs : Scripted before outer W W' r h) : h.IsProgram r where
  script := hs.object
  wellFormed := fun x f hx hf => by
    have hroots (y : Handle) (hy : y ∈ [r]) : W'.Knows y :=
      List.mem_singleton.mp hy ▸ ⟨_, hs.function⟩
    obtain ⟨t, ht⟩ := hs.fits.knows hroots hx
    obtain ⟨o, ho, hd⟩ := hs.fits x t ht
    rw [hf, Option.some.injEq] at ho
    subst ho
    cases hd with
    | function _ _ code => exact World.wellFormed hs.fits code

/-- A source that compiles on a sound heap becomes a script that is known with all that it leads
to. -/
theorem Compile.scripted_of_compile {source : String} {heap h : Heap} {outer : List Handle}
    {r : Handle} (hs : heap.Sound) (hc : heap.Covers outer)
    (hdone : compile source heap outer = (.function r, h)) :
    ∃ W, Scripted heap outer World.nothing W r h := by
  have hspec := compile_spec source hs hc
  rw [hdone] at hspec
  exact hspec.2.2 World.nothing World.fits_nothing

/-- So it becomes a program. -/
theorem Compile.isProgram_of_compile {source : String} {heap h : Heap} {outer : List Handle}
    {r : Handle} (hs : heap.Sound) (hc : heap.Covers outer)
    (hdone : compile source heap outer = (.function r, h)) : h.IsProgram r := by
  obtain ⟨W, hscripted⟩ := scripted_of_compile hs hc hdone
  exact hscripted.isProgram

namespace Machine

variable {m m' : Machine} {W : World} {O : Outline}

/-- What compiling comes to on a machine that shows `O`: a known script, or errors, or an exhausted
arena. -/
inductive Compiled (O : Outline) : Compile.Result → Machine → Prop
  | function {W : World} {r : Handle} {m : Machine} (shows : m.Shows W O)
      (known : W r = some (.function [])) : Compiled O (.function r) m
  | errors {W : World} {es : List CompileError} {m : Machine} (shows : m.Shows W O) :
      Compiled O (.errors es) m
  | full {m : Machine} : Compiled O (.fault .arenaFull) m

/-- What a machine shows stays so when it compiles, because no upvalue is made. -/
theorem Shows.leaves {V : World} {h : Heap} (hm : m.Shows W O)
    (hl : Compile.Leaves m.heap m.roots h) (hfits : V.Fits h)
    (htypes : ∀ x t, m.heap.Reachable m.roots x → W x = some t → V x = some t) :
    { m with heap := h }.Shows V O := by
  refine hm.carry ⟨hfits, htypes, hl.kept⟩ hl.sound fun x j hj => ?_
  rcases hl.made x _ hj with hold | ⟨s, hs⟩ | ⟨f, hf⟩
  · exact hold
  · cases hs
  · cases hf

/-- Compiling a source changes the heap alone. -/
theorem compile_eq (m : Machine) (source : String) :
    m.compile source = ((Compile.compile source m.heap m.roots).1,
      { m with heap := (Compile.compile source m.heap m.roots).2 }) := rfl

/-- Compiling on a machine that shows something. -/
theorem Shows.compiled (hm : m.Shows W O) (source : String) :
    Compiled O (m.compile source).1 (m.compile source).2 := by
  have hspec := Compile.compile_spec source hm.sound (hm.covers hm.lists)
  rw [compile_eq]
  generalize Compile.compile source m.heap m.roots = made at hspec
  obtain ⟨result, h⟩ := made
  cases result with
  | function r =>
    obtain ⟨hl, -, hworld⟩ := hspec
    obtain ⟨W', hscripted⟩ := hworld W hm.fits
    exact .function (hm.leaves hl hscripted.fits hscripted.kept) hscripted.function
  | errors es =>
    refine .errors (hm.leaves hspec (hm.fits.restrict hspec.kept) fun x t hx ht => ?_)
    rwa [World.restrict_of_kept hx]
  | fault f =>
    obtain rfl : f = .arenaFull := hspec
    exact .full

end Machine

/-! ### Listing -/

/-- What succeeds for each value succeeds for all of them, and what is kept is as it was for each. -/
theorem exists_filterMapM {α β : Type} {f : α → Except Fault (Option β)} {P : β → Prop} {vs : List α}
    (hf : ∀ v ∈ vs, ∃ b, f v = .ok b ∧ ∀ r, b = some r → P r) :
    ∃ rs, vs.filterMapM f = .ok rs ∧ ∀ r ∈ rs, P r := by
  induction vs with
  | nil => exact ⟨[], rfl, by simp⟩
  | cons v vs ih =>
    obtain ⟨⟨b, hb, hP⟩, hrest⟩ := List.forall_mem_cons.mp hf
    obtain ⟨rs, hrs, hall⟩ := ih hrest
    rw [List.filterMapM_cons, hb]
    cases b with
    | none => exact ⟨rs, hrs, hall⟩
    | some r =>
      refine ⟨r :: rs, ?_, List.forall_mem_cons.mpr ⟨hP r rfl, hall⟩⟩
      show (vs.filterMapM f >>= fun rs => pure (r :: rs)) = _
      rw [hrs]
      rfl

/-- After a step that succeeds comes the next one. -/
theorem exists_bind {α β : Type} {x : Except Fault α} {f : α → Except Fault β} {a : α}
    (hx : x = .ok a) (hf : ∃ b, f a = .ok b) : ∃ b, (x >>= f) = .ok b := by
  rw [hx]
  exact hf

/-- The functions among known constants are known. -/
theorem World.Fits.exists_nested {W : World} {h : Heap} (hw : W.Fits h) {vs : List Value}
    (hvs : ∀ v ∈ vs, W.Holds v .any) : ∃ rs,
      (vs.filterMapM fun v => (do
        let kind ← h.kind? v
        return if kind = some .function then v.toHandle? else none : Except Fault (Option Handle)))
        = .ok rs ∧ ∀ r ∈ rs, ∃ captures, W r = some (.function captures) := by
  refine exists_filterMapM fun v hv => ?_
  obtain ⟨k, hk⟩ := hw.kind? (hvs v hv)
  rw [hk]
  refine ⟨_, rfl, fun r hr => ?_⟩
  split at hr
  · next hfunction =>
    subst hfunction
    obtain ⟨x, captures, hat, ht⟩ := hw.function_of_kind? (hvs v hv) hk
    obtain rfl := Option.some.inj (hat.symm.trans hr)
    exact ⟨captures, ht⟩
  · cases hr

/-- Known functions, and the ones among their constants, can be listed. -/
theorem World.Fits.exists_listFunctions {W : World} {h : Heap} (hw : W.Fits h) (fuel : Nat)
    {waiting : List Handle} (text : String)
    (hknown : ∀ r ∈ waiting, ∃ captures, W r = some (.function captures)) :
    ∃ text', Machine.listFunctions h fuel waiting text = .ok text' := by
  induction fuel generalizing waiting text with
  | zero => exact ⟨text, rfl⟩
  | succ fuel ih =>
    cases waiting with
    | nil => exact ⟨text, rfl⟩
    | cons r waiting =>
      obtain ⟨⟨captures, ht⟩, hwaiting⟩ := List.forall_mem_cons.mp hknown
      obtain ⟨f, hf, -, hd⟩ := hw.prototype ht
      cases hd with
      | function name constants code =>
        obtain ⟨nested, hnested, hfunctions⟩ := hw.exists_nested fun v hv =>
          constants v (Array.mem_toList_iff.mp hv)
        have hlisting := (World.wellFormed hw code).exists_listing hw constants
        -- whatever the title is, the functions that wait come after this listing
        have hrest (title : String) : ∃ text', (do
            let listing ← f.chunk.listing h title
            let nested ← f.chunk.constants.toList.filterMapM fun v => do
              let kind ← h.kind? v
              return if kind = some .function then v.toHandle? else none
            Machine.listFunctions h fuel (waiting ++ nested) (text ++ listing) :
              Except Fault String) = .ok text' := by
          obtain ⟨listing, hlisted⟩ := hlisting title
          refine exists_bind hlisted (exists_bind hnested (ih _ fun x hx => ?_))
          exact (List.mem_append.mp hx).elim (hwaiting x) (hfunctions x)
        rw [Machine.listFunctions]
        refine exists_bind hf ?_
        dsimp only
        cases hname : f.name with
        | none => exact exists_bind rfl (hrest _)
        | some n =>
          obtain ⟨chars, hchars⟩ := name n hname
          exact exists_bind (hw.string hchars) (exists_bind rfl (hrest _))

end ScriptMachine
