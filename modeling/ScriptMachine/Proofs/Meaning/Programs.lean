import ScriptMachine.Proofs.Meaning.Statements
import ScriptMachine.Proofs.Parallel.Creation
import ScriptMachine.Proofs.Scoping.Programs
import ScriptMachine.Proofs.Syntax.Unique

/-!
# Programs

A machine that was just made has the native functions as its globals. If a program of the core
compiles, the machine runs it to where its evaluation ends, with success or with the same error, and
then the same lines have been printed and each global has the value that it has in the evaluation.
-/

namespace ScriptMachine

open Exec

/-! ### The globals of a new machine -/

/-- The globals of a machine are some native functions, the last of those with one name. -/
def Machine.Offers (m : Machine) (ns : List Native) : Prop :=
  ∀ name, Option.Rel (fun v n => ∃ r, v = .ofHandle r ∧ m.heap.object? r = some (.native n))
    (m.global? name) (ns.find? (·.name = name))

namespace Exec

variable {m m' : Machine} {n : Native} {ns : List Native}

/-- With its name and its object made, a native function is put into the globals. -/
theorem setNative_eq {name : Handle} {key : Key} {below : Array Value} {v : Value} (r : Handle)
    (hkey : m.heap.key name = .ok key) (hstack : m.stack = below.push v) : (do
      push (.ofHandle r)
      let key ← readHeap (·.key name)
      let _ ← setGlobal key (.ofHandle r)
      drop
      drop : Exec Unit) m = .ok () { m.withGlobal key (.ofHandle r) with stack := below } := by
  have hpush : push (.ofHandle r) m = .ok () { m with stack := m.stack.push (.ofHandle r) } := rfl
  have hread : readHeap (·.key name) { m with stack := m.stack.push (.ofHandle r) } =
      .ok key { m with stack := m.stack.push (.ofHandle r) } := readHeap_eq hkey
  have hset : setGlobal key (.ofHandle r) { m with stack := m.stack.push (.ofHandle r) } =
      .ok _ (Machine.withGlobal { m with stack := m.stack.push (.ofHandle r) } key (.ofHandle r)) := rfl
  rw [bind_eq hpush, bind_eq hread, bind_eq hset, bind_eq (drop_top rfl)]
  exact drop_top hstack

/-- A native function that is defined is the global of its name; whatever the globals refer to stays
as it is. -/
theorem exists_defined (hm : m.Rests) (hn : n.action = .clock ∨ n.arity = some 1)
    (hdone : defineNative n m = .ok () m') : ∃ r, m'.heap.object? r = some (.native n) ∧
      (∀ x, m.globals.Stores x → m'.heap.object? x = m.heap.object? x) ∧
      (∀ name, m'.global? name = if name = n.name then some (.ofHandle r) else m.global? name) ∧
      m'.framesMax = m.framesMax := by
  obtain ⟨W, hm⟩ := hm
  obtain ⟨name, m₁, hintern, hrest⟩ := exists_of_bind_ok hdone
  obtain ⟨V, hm₁, hknown⟩ := (does_intern n.name hm).of_ok hintern
  obtain ⟨h, rfl, hi⟩ : ∃ h, m₁ = { m with heap := h } ∧
      m.heap.InternedAs m.roots n.name name h := by
    rcases intern_cases n.name ⟨W, _, hm⟩ with ⟨r, h, hok, hi⟩ | hfull
    · obtain ⟨rfl, rfl⟩ := EStateM.Result.ok.inj (hok.symm.trans hintern)
      exact ⟨h, rfl, hi⟩
    · cases hfull.symm.trans hintern
  obtain ⟨_, m₂, hpush, hrest⟩ := exists_of_bind_ok hrest
  have hm₂ := (does_push (x := .value) hm₁ (World.holds_ofHandle hknown)).of_ok hpush
  obtain ⟨-, rfl⟩ := EStateM.Result.ok.inj hpush
  obtain ⟨r, m₃, halloc, hrest⟩ := exists_of_bind_ok hrest
  have hadds := alloc_adds ⟨hm₂.toTyped, hm₂.lists⟩ (.native hn) (by simp) halloc
  obtain ⟨V₃, hm₃, hr, hkept⟩ := (does_alloc hm₂ (.native hn) (by simp) (by simp)).of_ok halloc
  obtain ⟨h₃, rfl⟩ := hadds.rest
  have hkeeps : Machine.Keeps { m with heap := h, stack := m.stack.push (.ofHandle name) } name :=
    .root (Machine.mem_roots.mpr (.inl ⟨_, Array.mem_push_self, Value.toHandle?_ofHandle name⟩))
  have htext : h₃.object? name = some (.string ⟨n.name, Text.hash n.name⟩) :=
    (hadds.objects name hkeeps).trans hi.new
  have hm₄ := does_push (x := .value) hm₃ (World.holds_ofHandle hr)
  have hset := hm₄.global?_withGlobal (World.holds_ofHandle hr)
    ⟨n.name, hkept name _ (.inl hkeeps) hknown, rfl⟩ htext
  have hstored (x : Handle) (hx : m.globals.Stores x) : h₃.object? x = m.heap.object? x := by
    have hroot : x ∈ m.roots := Machine.mem_roots.mpr (.inr (.inr (.inr (.inl hx))))
    refine (hadds.objects x (.root (Machine.mem_roots.mpr ?_))).trans (hi.kept x (.root hroot))
    exact .inr (.inr (.inr (.inl hx)))
  have hend := setNative_eq (m := { m with heap := h₃, stack := m.stack.push (.ofHandle name) })
    r (Heap.key_eq htext) rfl
  obtain ⟨-, rfl⟩ := EStateM.Result.ok.inj (hend.symm.trans hrest)
  refine ⟨r, hadds.object, hstored, fun other => (hset other).trans ?_, rfl⟩
  rw [show Machine.global? { m with
      heap := h₃, stack := (m.stack.push (.ofHandle name)).push (.ofHandle r) } other =
    m.global? other from Heap.under?_congr hstored]

/-- One more built-in function is offered. -/
theorem offers_defineNative (hm : m.Rests) (hn : n.action = .clock ∨ n.arity = some 1)
    (ho : m.Offers ns) (hdone : defineNative n m = .ok () m') :
    m'.Offers (n :: ns) ∧ m'.framesMax = m.framesMax := by
  obtain ⟨r, hr, hstored, hset, hframes⟩ := exists_defined hm hn hdone
  refine ⟨fun name => ?_, hframes⟩
  rw [hset, List.find?_cons]
  by_cases hname : n.name = name
  · rw [if_pos hname.symm, decide_eq_true hname]
    exact .some ⟨r, rfl, hr⟩
  · rw [if_neg fun heq => hname heq.symm, decide_eq_false hname]
    have hrel := ho name
    generalize hv : m.global? name = found at hrel ⊢
    generalize ns.find? (·.name = name) = known at hrel ⊢
    cases hrel with
    | none => exact .none
    | some hfound =>
      obtain ⟨x, rfl, hx⟩ := hfound
      obtain ⟨k, hlive⟩ := Heap.live_of_under? hv
      exact .some ⟨x, rfl, (hstored x (.value hlive (Value.toHandle?_ofHandle x))).trans hx⟩

/-- More built-in functions are offered, by induction on them. -/
theorem offers_defineNatives {new : List Native} (hm : m.Rests)
    (hnew : ∀ n ∈ new, n.action = .clock ∨ n.arity = some 1) (ho : m.Offers ns)
    (hdone : defineNatives new m = .ok () m') :
    m'.Rests ∧ m'.Offers (new.reverse ++ ns) ∧ m'.framesMax = m.framesMax := by
  induction new generalizing m ns with
  | nil =>
    obtain ⟨-, rfl⟩ := EStateM.Result.ok.inj hdone
    exact ⟨hm, ho, rfl⟩
  | cons n new ih =>
    obtain ⟨hn, hmore⟩ := List.forall_mem_cons.mp hnew
    obtain ⟨_, m₁, hfirst, hrest⟩ := exists_of_bind_ok hdone
    obtain ⟨ho₁, hframes⟩ := offers_defineNative hm hn ho hfirst
    obtain ⟨hm', ho', hframes'⟩ := ih ((does_defineNative hm hn).of_ok hfirst) hmore ho₁ hrest
    rw [List.reverse_cons, List.append_assoc]
    exact ⟨hm', ho', hframes'.trans hframes⟩

end Exec

namespace Machine

variable {settings : Settings} {journal : Journal} {sink : Sink} {m m' : Machine} {σ : Store}

/-- The globals of a new machine are those of a fresh store. -/
theorem reflects_created (hdone : create settings journal sink = .ok m) :
    m.Rests ∧ m.Reflects m.global? (Store.fresh sink) ∧ m.framesMax = settings.framesMax := by
  obtain ⟨r, h, hi, hdefined⟩ := exists_of_create hdone
  have harguments : ∀ n ∈ Native.all, n.action = .clock ∨ n.arity = some 1 := by decide
  have hnone : Machine.Offers ⟨h, Table.empty, #[], #[], [], r, settings.framesMax, sink, 0⟩ [] :=
    fun name => .none
  obtain ⟨hm, ho, hframes⟩ :=
    offers_defineNatives (rests_start settings.framesMax hi) harguments hnone hdefined
  have hsink : m.sink = sink := silent_defineNatives _ _ _ _ hdefined
  refine ⟨hm, ⟨fun name => ?_, hsink, ?_⟩, hframes⟩
  · have hrel := ho name
    rw [List.append_nil] at hrel
    show Option.Rel _ _ (if Native.all.any (·.name = name) then some (Datum.native name) else none)
    generalize hv : m.global? name = found at hrel ⊢
    generalize hn : Native.all.reverse.find? (·.name = name) = known at hrel
    cases hrel with
    | none =>
      have hall := List.find?_eq_none.mp hn
      rw [if_neg fun hany => ?_]
      · exact .none
      obtain ⟨n, hmem, hname⟩ := List.any_eq_true.mp hany
      exact hall n (List.mem_reverse.mpr hmem) hname
    | @some _ n hfound =>
      obtain ⟨x, rfl, hx⟩ := hfound
      have hname : n.name = name := of_decide_eq_true (p := n.name = name) (List.find?_some (p := fun x : Native => decide (x.name = name)) hn)
      have hmem := List.mem_reverse.mp (List.mem_of_find?_eq_some hn)
      rw [if_pos (List.any_eq_true.mpr ⟨n, hmem, decide_eq_true hname⟩)]
      subst hname
      exact .some (.native hx hv)
  · obtain ⟨W, hshows⟩ := hm
    exact hshows.lists.eq_nil

/-! ### Loading -/

/-- A loaded script runs beside an evaluation that is outside of all blocks. -/
theorem Loaded.holds {natives : String → Option Value} {V : World} {r y : Handle} {f : Prototype}
    {m₁ m₂ : Machine} (hm : m₁.Shows V ⟨[], none, []⟩) (hr : m₁.Reflects natives σ)
    (hblocks : σ.blocks = []) (hl : m₁.Loaded r y m₂) (hf : m₁.heap.object? r = some (.function f))
    (S : Script) (hnatives : S.natives = natives) (hclosure : S.closure = y)
    (hchunk : S.chunk = f.chunk) (hheap : S.body.heap = m₁.heap) :
    S.Holds 0 [] σ [] { m₂ with frames := m₂.frames.push ⟨y, f.chunk, 0, 0⟩ } := by
  have hkept (x : Handle) (hx : m₁.Keeps x) : m₂.heap.object? x = m₁.heap.object? x :=
    hl.objects x (hx.mono fun _ => List.mem_cons_of_mem r)
  have hframes : m₂.frames = #[] := hl.frames.trans (Rests.frames_eq ⟨V, hm⟩)
  have hstack : m₁.stack = #[] := Array.toList_eq_nil_iff.mp (List.forall₂_nil_right_iff.mp hm.stack)
  have hlocals : σ.values = [] := by rw [Store.values, Store.locals, hblocks]; rfl
  obtain ⟨h, hrest⟩ := hl.rest
  subst hnatives
  refine
    { toReflects := hr.carry (by rw [hrest]) (by rw [hrest]) (by rw [hrest]) fun x hx =>
        hkept x (.root (mem_roots.mpr (.inr (.inr (.inr (.inl hx))))))
      declared := by rw [Store.declared, hblocks]; rfl
      frames := by rw [hframes, hclosure, hchunk]; rfl
      values := ⟨.ofHandle y, [], by simp [hl.stack, hstack], by rw [hlocals]; exact .nil⟩
      names := ?_ }
  rintro k name ⟨x, text, hx, htext, hchars⟩
  refine ⟨x, text, hx, ?_, hchars⟩
  rw [hheap] at htext
  have hmem : Value.ofHandle x ∈ f.chunk.constants := by
    rw [S.constants, Array.getElem?_toList, hchunk] at hx
    exact Array.mem_of_getElem? hx
  refine (hl.objects x ?_).trans htext
  exact (Heap.Reachable.root (List.mem_cons_self)).step hf
    (.functionConstant hmem (Value.toHandle?_ofHandle x))

/-- A program of the core that compiles is entered at the start of its code, unless no space is
left. -/
theorem loads_core {natives : String → Option Value} {source : String} {program : List Core.Stmt}
    (hm : m.Rests) (hr : m.Reflects natives σ) (hblocks : σ.blocks = []) (hroom : 0 < m.framesMax)
    (hspells : Spells (Core.Stmt.listTree program) (Compile.sourceTokens source))
    (haccepted : ∀ es, (m.compile source).1 ≠ .errors es) :
    (∃ (S : Script) (m' : Machine) (ws : List UInt32) (scope : Scope),
      m.load source = (.unfinished, m') ∧ S.natives = natives ∧ S.At 0 [] σ [] m' ∧
        Stmt.ListCodes S.body (.ofBlocks []) false (Core.Stmt.listTree program) ws scope ∧
          S.Has 0 (ws ++ FunctionKind.finalReturn .script)) ∨
      ∃ m', m.load source = (.fault .arenaFull, m') := by
  obtain ⟨W, hm⟩ := hm
  have hcompiled := hm.compiled source
  have hspec := Compile.compile_spec source hm.sound (hm.covers hm.lists)
  have hscripts (r : Handle) (h : Heap) (hdone : Compile.compile source m.heap m.roots =
      (.function r, h)) := Compile.scripts_of_compile hm.sound (hm.covers hm.lists) hdone
  have hscript (r : Handle) (h : Heap) (hdone : Compile.compile source m.heap m.roots =
      (.function r, h)) := (Compile.isProgram_of_compile hm.sound (hm.covers hm.lists) hdone).script
  rw [load]
  rw [compile_eq] at hcompiled haccepted ⊢
  generalize Compile.compile source m.heap m.roots = made at *
  obtain ⟨result, h⟩ := made
  cases result with
  | errors es => exact absurd rfl (haccepted es)
  | fault f =>
    obtain rfl : f = .arenaFull := hspec
    exact .inr ⟨_, rfl⟩
  | function r =>
    obtain ⟨body, f, ws, scope, hspells', hf, hcodes, hcode⟩ := hscripts r h rfl
    obtain rfl := hspells'.unique hspells
    obtain ⟨f', hf', hisScript⟩ := hscript r h rfl
    obtain rfl := Object.function.inj (Option.some.inj (hf.symm.trans hf'))
    obtain ⟨hleaves, -, -⟩ := hspec
    have hr₁ : Machine.Reflects natives { m with heap := h } σ := hr.carry rfl rfl rfl fun x hx =>
      hleaves.kept x (.root (mem_roots.mpr (.inr (.inr (.inr (.inl hx))))))
    cases hcompiled with
    | @function V _ _ shows known =>
      have hdoes := Exec.does_enter shows known
      dsimp only
      rcases enter_cases shows known with ⟨fault, m₂, hfault⟩ | ⟨y, m₂, hloaded, henter⟩
      · rw [hfault] at hdoes ⊢
        obtain rfl : fault = .arenaFull := hdoes
        exact .inr ⟨_, rfl⟩
      have hobject : m₂.heap.object? r = some (.function f) :=
        (hloaded.objects r (.root List.mem_cons_self)).trans hf
      have hsize : m₂.stack.size = 1 := by
        rw [hloaded.stack, Array.size_push, shows.size_stack]
        rfl
      have hframes : m₂.frames = #[] := hloaded.frames.trans (Rests.frames_eq ⟨V, shows⟩)
      have hmax : m₂.framesMax = m.framesMax := by
        obtain ⟨_, rfl⟩ := hloaded.rest
        rfl
      have hcount : (0 : UInt8).toNat < m₂.stack.size := hsize ▸ Nat.one_pos
      rcases callClosure_cases hloaded.object hobject hcount with
        hok | ⟨harity, -⟩ | ⟨hfull, -⟩
      · rw [henter, hok] at hdoes ⊢
        rw [hsize] at hdoes ⊢
        refine .inl ⟨⟨natives, ⟨h, .script, f.chunk.constants.toList, [], []⟩, y, f.chunk, rfl, rfl,
          rfl⟩, _, ws, scope, rfl, rfl, ⟨hdoes, ?_⟩, hcodes, ?_⟩
        · exact hloaded.holds shows hr₁ hblocks hf _ rfl rfl rfl rfl
        · intro k w hw
          rw [← hcode, Array.getElem?_toList] at hw
          rwa [Nat.zero_add]
      · exact absurd hisScript.arity.symm harity
      · rw [hframes, hsize, hmax] at hfull
        simp [stackPerFrame] at hfull
        omega

end Machine

/-! ### Running -/

/-- The outermost function returns from a machine that lists no upvalues. -/
theorem Exec.return_outermost {m : Machine} {f : Frame} {below : Array Value} {v : Value}
    (hframes : m.frames = #[f]) (hstack : m.stack = below.push v) (hopen : m.openUpvalues = []) :
    return_ m = .ok .finished { m with stack := below.shrink f.base, frames := #[] } := by
  have hframe : frame { m with stack := below } = .ok f { m with stack := below } := by
    rw [frame, hframes]
    rfl
  have hleave : (modify fun m => { m with frames := m.frames.pop } : Exec Unit)
      { m with stack := below } = .ok () { m with stack := below, frames := #[] } := by
    show EStateM.Result.ok () { m with stack := below, frames := m.frames.pop } = _
    rw [hframes]
    rfl
  have hlook : look Machine.openUpvalues { m with stack := below, frames := #[] } =
      .ok [] { m with stack := below, frames := #[] } := congrArg (EStateM.Result.ok · _) hopen
  have hclose : closeUpvalues f.base { m with stack := below, frames := #[] } =
      .ok () { m with stack := below, frames := #[] } := by
    rw [closeUpvalues, bind_eq hlook]
    show EStateM.Result.ok () { m with stack := below, frames := #[], openUpvalues := [] } = _
    rw [← hopen]
  rw [return_, bind_eq (pop_top hstack), bind_eq hframe, bind_eq hleave, bind_eq hclose]
  rfl

namespace Script

variable {S : Script} {m : Machine} {ip : Nat} {vars : List (List String)} {σ : Store} {d : Datum}

/-- A run comes to its end with the globals of a store, unless no space is left. -/
def Ends (S : Script) (m : Machine) (σ : Store) : Prop :=
  ∃ n, (∃ m', Exec.run n m = .ok .finished m' ∧ m'.Reflects S.natives σ) ∨
    ∃ m', Exec.run n m = .error (.fault .arenaFull) m'

/-- With the outermost function the run ends. -/
theorem At.ends (h : S.At ip vars σ [d] m) (hi : S.chunk.code[ip]? = some Instr.return_.encode) :
    S.Ends m σ := by
  obtain ⟨hm, hholds⟩ := h
  have hnext : m.next? = some .return_ := by
    rw [Machine.next?, hholds.back, Option.bind_some, hi, Option.bind_some]
    exact Instr.decode?_encode _
  refine ⟨1, ?_⟩
  rw [run_one]
  have hdoes := does_step hm
  rcases step_cases m with ⟨fault, m', hfault⟩ | ⟨f, i, heap, hback, hi', halike, hreturn, -⟩
  · rw [hfault] at hdoes ⊢
    obtain rfl : fault = .arenaFull := hdoes
    exact .inr ⟨m', rfl⟩
  obtain rfl : i = .return_ := Option.some.inj (hi'.symm.trans hnext)
  obtain rfl : ⟨S.closure, S.chunk, ip, 0⟩ = f := Option.some.inj (hholds.back.symm.trans hback)
  obtain ⟨below, v, hstack, -, -⟩ := hholds.exists_top
  have hframes : (m.fetched ⟨S.closure, S.chunk, ip, 0⟩ heap).frames =
      #[⟨S.closure, S.chunk, ip + 1, 0⟩] := by
    show m.frames.pop.push _ = _
    rw [hholds.frames]
    rfl
  exact .inl ⟨_, (hreturn rfl).trans (return_outermost hframes hstack hholds.closed),
    hholds.toReflects.carry rfl rfl rfl fun x _ => halike.object? x⟩

/-- Behind its statements a script returns. -/
theorem At.finishes (h : S.At ip vars σ [] m) (hws : S.Has ip (FunctionKind.finalReturn .script)) :
    S.Ends m σ := by
  obtain ⟨hnull, hreturn, -⟩ : _ ∧ _ ∧ _ := by
    simpa only [FunctionKind.finalReturn, has_cons] using hws
  obtain ⟨n, hn⟩ := h.pushes (d := .null) (i := .null) hnull (fun heq => by cases heq)
    fun _ _ _ => ⟨_, rfl, .null⟩
  generalize hrun : Exec.run n m = result at hn
  cases hn with
  | ok holds =>
    obtain ⟨k, hk⟩ := holds.ends hreturn
    exact ⟨n + k, by rwa [Exec.run_add hrun]⟩
  | full => exact ⟨n, .inr ⟨_, hrun⟩⟩

end Script

namespace Machine

variable {settings : Settings} {journal : Journal} {sink : Sink} {m m' : Machine} {σ : Store}

/-- What a run comes to is what an evaluation comes to, unless no space is left: it succeeds or
fails alike, the same lines were printed, and the globals stand for the same. -/
inductive Agrees (natives : String → Option Value) :
    Outcome × Machine → EStateM.Result Stop Store Unit → Prop
  | ok {m : Machine} {σ : Store} (reflects : m.Reflects natives σ) :
      Agrees natives (.ok, m) (.ok () σ)
  | failed {f : Failure} {m : Machine} {σ : Store} (reflects : m.Reflects natives σ) :
      Agrees natives (.failed f, m) (.error (.error f.error) σ)
  | full {m : Machine} {r : EStateM.Result Stop Store Unit} :
      Agrees natives (.fault .arenaFull, m) r

/-- Where a run and an evaluation are stopped by the same error, they agree when it is reported. -/
theorem agrees_settle {natives : String → Option Value} {e : RuntimeError} {n : Nat}
    (hready : m.Ready) (hrun : Exec.run n m = .error (.error e) m') (hr : m'.Reflects natives σ) :
    Agrees natives (m'.settle (.error e)) (.error (.error e) σ) := by
  have hshows := Exec.does_run n hready
  rw [hrun] at hshows
  obtain ⟨W, O, hshows⟩ := hshows
  obtain ⟨f, m'', hfailure, rfl, hrests, hcloses, hglobals, hsink, -⟩ := Exec.failure_eq e hshows
  rw [settle, hfailure]
  refine .failed (hr.carry hglobals hsink ?_ fun x _ => ?_)
  · obtain ⟨V, hrests⟩ := hrests
    exact hrests.lists.eq_nil.trans hr.closed.symm
  · exact hcloses.kept x (by rw [hr.closed]; exact List.not_mem_nil)

/-- A script at the start of the code of a program agrees with the evaluation of the program. -/
theorem agrees_resume {S : Script} {program : List Core.Stmt} {ws : List UInt32} {scope : Scope}
    {fuel : Nat} (hp : ProperNames (Stmt.listTokens (Core.Stmt.listTree program)))
    (h : S.At 0 [] σ [] m)
    (hcodes : Stmt.ListCodes S.body (.ofBlocks []) false (Core.Stmt.listTree program) ws scope)
    (hws : S.Has 0 (ws ++ FunctionKind.finalReturn .script))
    (hends : ∀ σ', Core.Stmt.listExec fuel program σ ≠ .error .unfinished σ') :
    ∃ n, Agrees S.natives (m.resume n) (Core.Stmt.listExec fuel program σ) := by
  obtain ⟨hbody, hreturn⟩ := Script.has_append.mp hws
  have hruns : S.Runs m (Core.Stmt.listExec fuel program σ) _ := Script.executesList
    (fun _ _ hp _ _ _ _ _ _ h hcodes hws => Script.executes hp h hcodes hws) hp h hcodes hbody
  obtain ⟨n, hn⟩ := hruns
  generalize hrun : Exec.run n m = result at hn
  generalize Core.Stmt.listExec fuel program σ = evaluated at hn hends
  cases hn with
  | ok holds =>
    obtain ⟨k, ⟨m', hfinished, hreflects⟩ | ⟨m', hfull⟩⟩ := holds.finishes hreturn
    · refine ⟨n + k, ?_⟩
      rw [resume, Exec.run_add hrun, hfinished]
      exact .ok hreflects
    · refine ⟨n + k, ?_⟩
      rw [resume, Exec.run_add hrun, hfull]
      exact .full
  | error reflects =>
    refine ⟨n, ?_⟩
    rw [resume, hrun]
    exact agrees_settle h.1 hrun reflects
  | full =>
    refine ⟨n, ?_⟩
    rw [resume, hrun]
    exact .full
  | unfinished => exact absurd rfl (hends _)

/-- A program of the core that a new machine compiles does what its evaluation does: if that ends,
the run ends, with success or with the same error; then both have printed the same lines, and every
global has the value that it has in the evaluation. -/
theorem core_programs_evaluated (settings : Settings) (journal : Journal) (sink : Sink)
    {source : String} {program : List Core.Stmt} {fuel : Nat} (hroom : 0 < settings.framesMax)
    (hm : create settings journal sink = .ok m)
    (hspells : Spells (Core.Stmt.listTree program) (Compile.sourceTokens source))
    (haccepted : ∀ es, (m.compile source).1 ≠ .errors es)
    (hends : ∀ σ, Core.evaluate fuel program sink ≠ .error .unfinished σ) :
    ∃ n, Agrees m.global? (m.interpret n source) (Core.evaluate fuel program sink) := by
  obtain ⟨hrests, hreflects, hframes⟩ := reflects_created hm
  have hproper := properNames_source source
  rw [← hspells.tokens] at hproper
  rcases loads_core hrests hreflects rfl (hframes ▸ hroom) hspells haccepted with
    ⟨S, m', ws, scope, hload, hnatives, hat, hcodes, hws⟩ | ⟨m', hload⟩
  · obtain ⟨n, hn⟩ := agrees_resume hproper hat hcodes hws hends
    refine ⟨n, ?_⟩
    rw [interpret, hload, ← hnatives]
    exact hn
  · refine ⟨0, ?_⟩
    rw [interpret, hload]
    exact .full

/-- A block with a loop that goes round once, and then a use of the variable of the block. -/
def leftScope : List Core.Stmt :=
  [.block [.let_ "a" (some (.text "x")), .while_ (.variable_ "a") (.expression (.assign "a" .null))],
    .print (.variable_ "a")]

/-- Why an evaluation stopped. -/
def error? : EStateM.Result Stop Store Unit → Option RuntimeError
  | .error (.error e) _ => some e
  | _ => none

/-- The variable of a block is not there behind the block: neither for the evaluation nor for the
machine. -/
theorem left_scope_evaluated : ∃ m n,
    create Settings.standard Journal.off Sink.unlimited = .ok m ∧
      Agrees m.global? (m.interpret n "\x7b let a = \"x\"; while (a) a = null; \x7d print a;")
        (Core.evaluate 2 leftScope Sink.unlimited) ∧
      error? (Core.evaluate 2 leftScope Sink.unlimited) = some (.undefinedVariable "a") := by
  obtain ⟨m, hm, haccepted⟩ := exists_created (g := fun m =>
    (m.compile "\x7b let a = \"x\"; while (a) a = null; \x7d print a;").1.function?.isSome) (by decide +kernel)
  have hstops : error? (Core.evaluate 2 leftScope Sink.unlimited) = some (.undefinedVariable "a") := by
    decide +kernel
  have hread : Token.areSame (Compile.sourceTokens "\x7b let a = \"x\"; while (a) a = null; \x7d print a;")
      (Stmt.listTokens (Core.Stmt.listTree leftScope)) = true := by decide +kernel
  have hspells : Spells (Core.Stmt.listTree leftScope)
      (Compile.sourceTokens "\x7b let a = \"x\"; while (a) a = null; \x7d print a;") := by
    exact ⟨(Token.eq_of_areSame hread).symm,
      ⟨⟨trivial, ⟨trivial, trivial, rfl⟩, trivial⟩, trivial, trivial⟩⟩
  have hends (σ : Store) : Core.evaluate 2 leftScope Sink.unlimited ≠ .error .unfinished σ := by
    intro hσ
    rw [hσ] at hstops
    cases hstops
  obtain ⟨n, hn⟩ := core_programs_evaluated Settings.standard Journal.off Sink.unlimited
    (by decide) hm hspells (fun es hes => by rw [hes] at haccepted; cases haccepted) hends
  exact ⟨m, n, hm, hn, hstops⟩

end Machine

end ScriptMachine
