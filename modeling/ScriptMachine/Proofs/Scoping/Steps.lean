import ScriptMachine.Proofs.Compile.Scopes
import ScriptMachine.Proofs.Scoping.Codes
import ScriptMachine.Proofs.Scoping.Marks
import ScriptMachine.Proofs.Syntax.Blocks

/-!
# What the steps of a translation add

A step that goes on adds words, constants and captures to the function in the making, and captures
and marks to those around it. What the code refers to is only there once the function is finished,
so the words of a step are described for every body that the function may still become: one with
at least its constants and captures, in a heap that keeps what the compiler keeps alive. `Makes`
says this of one step; steps in sequence are reasoned about one after the other.
-/

namespace ScriptMachine

open Compile

namespace Compile

/-- The pool of a draft finds its constants, no capture is listed twice, and nothing in it is too
much for the operands of instructions. -/
structure Draft.Tidy (d : Draft) : Prop where
  pooled : d.Pooled
  locals : d.locals.length ≤ maxLocals
  captures : d.captures.size ≤ maxUpvalues
  distinct : d.captures.toList.Nodup

/-- Between two steps: at most the latest local is not initialized, and the functions around have
the marks of all captures. -/
structure State.Steady (before : Heap) (s : State) : Prop where
  live : s.Live before
  tidy : ∀ d ∈ s.drafts, d.Tidy
  settled : Settled s.draft.locals.tail
  around : ∀ d ∈ s.enclosing, Settled d.locals
  marks : Marks s.draft.captures.toList s.enclosing s.enclosing

/-- From one state to another, words were added to the function in the making. -/
structure State.Adds (before : Heap) (s s' : State) (words : List UInt32) : Prop where
  steady : s'.Steady before
  outer : s'.outer = s.outer
  kind : s'.draft.kind = s.draft.kind
  name : s'.draft.name = s.draft.name
  code : s'.draft.chunk.code.toList = s.draft.chunk.code.toList ++ words
  constants : s.draft.chunk.constants.toList <+: s'.draft.chunk.constants.toList
  captures : s.draft.captures.toList <+: s'.draft.captures.toList
  enclosing : Marks s'.draft.captures.toList s.enclosing s'.enclosing
  kept : ∀ x, s.heap.Reachable s.roots x → s'.heap.object? x = s.heap.object? x

end Compile

/-- A body is one that the function in the making may still become. -/
structure Body.Completes (B : Body) (s : State) : Prop where
  kind : B.kind = s.draft.kind
  constants : s.draft.chunk.constants.toList <+: B.constants
  captures : s.draft.captures.toList <+: B.captures
  outer : LevelsLe (levelsOf s.enclosing) B.outer
  heap : ∀ x, s.heap.Reachable s.roots x → B.heap.object? x = s.heap.object? x

namespace Compile

variable {before : Heap} {s s' s'' : State} {v w : List UInt32} {B : Body} {α β γ : Type} {o : Nat}

/-! ### Adding -/

/-- Every row of levels is at most itself. -/
theorem LevelsLe.refl (levels : List Level) : LevelsLe levels levels :=
  List.forall₂_same.mpr fun _ _ => ⟨rfl, List.prefix_rfl⟩

/-- The marks of a function around do not change what it keeps alive. -/
theorem Marks.mem_handles {captures : List Capture} {ds ds' : List Draft} {d : Draft} {r : Handle}
    (h : Marks captures ds ds') (hd : d ∈ ds) (hr : r ∈ d.handles) :
    ∃ d' ∈ ds', r ∈ d'.handles := by
  induction h with
  | nil => cases hd
  | cons more rest ih =>
    rcases List.mem_cons.mp hd with rfl | hd
    · exact ⟨_, List.mem_cons_self, hr⟩
    · obtain ⟨d', hd', hr⟩ := ih hd
      exact ⟨d', List.mem_cons_of_mem _ hd', hr⟩

namespace State

/-- Nothing is added by doing nothing. -/
theorem Adds.refl (hs : s.Steady before) : s.Adds before s [] :=
  ⟨hs, rfl, rfl, rfl, (List.append_nil _).symm, List.prefix_rfl, List.prefix_rfl, hs.marks,
    fun _ _ => rfl⟩

/-- Nothing that was kept alive is given up. -/
theorem Adds.roots (h : s.Adds before s' v) {r : Handle} (hr : r ∈ s.roots) : r ∈ s'.roots := by
  rw [mem_roots] at hr ⊢
  rcases hr with ⟨d, hd, hr⟩ | hr
  · left
    rcases List.mem_cons.mp hd with rfl | hd
    · refine ⟨s'.draft, List.mem_cons_self, ?_⟩
      rw [Draft.mem_handles] at hr ⊢
      rcases hr with hr | ⟨w, hw, hr⟩
      · exact .inl (h.name.trans hr)
      · exact .inr ⟨w, Array.mem_toList_iff.mp (h.constants.subset (Array.mem_toList_iff.mpr hw)), hr⟩
    · obtain ⟨d', hd', hr⟩ := h.enclosing.mem_handles hd hr
      exact ⟨d', List.mem_cons_of_mem _ hd', hr⟩
  · exact .inr (h.outer.symm ▸ hr)

/-- What was reachable stays so. -/
theorem Adds.reachable (h : s.Adds before s' v) {x : Handle}
    (hx : s.heap.Reachable s.roots x) : s'.heap.Reachable s'.roots x :=
  ((Heap.reachable_congr h.kept).mpr hx).mono fun _ => h.roots

/-- What is added twice is added. -/
theorem Adds.trans (h : s.Adds before s' v) (h' : s'.Adds before s'' w) :
    s.Adds before s'' (v ++ w) where
  steady := h'.steady
  outer := h'.outer.trans h.outer
  kind := h'.kind.trans h.kind
  name := h'.name.trans h.name
  code := by rw [h'.code, h.code, List.append_assoc]
  constants := h.constants.trans h'.constants
  captures := h.captures.trans h'.captures
  enclosing := h.enclosing.trans h'.captures h'.enclosing
  kept := fun x hx => (h'.kept x (h.reachable hx)).trans (h.kept x hx)

/-- The code grows by the words added. -/
theorem Adds.size (h : s.Adds before s' v) :
    s'.draft.chunk.code.size = s.draft.chunk.code.size + v.length := by
  rw [← Array.length_toList, h.code, List.length_append, Array.length_toList]

/-- The words that were added may be changed. -/
theorem Adds.recode (h : s.Adds before s' v) {code : Array UInt32} (lines : Array UInt32)
    (hcode : code.toList = s.draft.chunk.code.toList ++ w) :
    s.Adds before (s'.recode code lines) w where
  steady :=
    { live := h.steady.live.recode code lines
      tidy := fun d hd => by
        rcases List.mem_cons.mp hd with rfl | hd
        · have ht := h.steady.tidy s'.draft List.mem_cons_self
          exact ⟨ht.pooled.congr rfl rfl, ht.locals, ht.captures, ht.distinct⟩
        · exact h.steady.tidy d (List.mem_cons_of_mem _ hd)
      settled := h.steady.settled
      around := h.steady.around
      marks := h.steady.marks }
  outer := h.outer
  kind := h.kind
  name := h.name
  code := hcode
  constants := h.constants
  captures := h.captures
  enclosing := h.enclosing
  kept := h.kept

end State

/-- The body that the function in the making is so far. -/
def State.body (s : State) : Body :=
  ⟨s.heap, s.draft.kind, s.draft.chunk.constants.toList, s.draft.captures.toList,
    levelsOf s.enclosing⟩

/-- A function in the making completes to itself. -/
theorem State.body_completes (s : State) : s.body.Completes s :=
  ⟨rfl, List.prefix_rfl, List.prefix_rfl, .refl _, fun _ _ => rfl⟩

/-- What a function may still become after a step, it might have become before. -/
theorem State.Adds.completes (h : s.Adds before s' v) (hB : B.Completes s') : B.Completes s where
  kind := hB.kind.trans h.kind
  constants := h.constants.trans hB.constants
  captures := h.captures.trans hB.captures
  outer := h.enclosing.levels.trans hB.outer
  heap := fun x hx => (hB.heap x (h.reachable hx)).trans (h.kept x hx)

/-! ### Where a step stands -/

/-- Where the compiler stands: how deep in scopes of the function, with which locals and
parameters, and in which classes. -/
structure Site where
  depth : Nat
  locals : List Local
  arity : UInt8
  classes : List Bool

/-- Where the compiler stands. -/
def State.site (s : State) : Site :=
  ⟨s.draft.scopeDepth, s.draft.locals, s.draft.arity, s.classes⟩

/-- The scope of the locals. -/
def Site.scope (g : Site) : Scope := scopeOf g.locals

/-- The state at another place of the source. -/
def State.resite (s : State) (pos : Nat) (g : Site) : State :=
  { s with pos := pos, classes := g.classes, draft := { s.draft with
      scopeDepth := g.depth, locals := g.locals, arity := g.arity } }

/-- Changing the place adds nothing. -/
theorem State.Adds.resite (h : s.Adds before s' v) (pos : Nat) {g : Site}
    (hsettled : Settled g.locals.tail) (hfew : g.locals.length ≤ maxLocals) :
    s.Adds before (s'.resite pos g) v where
  steady :=
    { live := h.steady.live.change (.refl _) rfl fun d hd => by
        rcases List.mem_cons.mp hd with rfl | hd
        · exact ⟨s'.draft, List.mem_cons_self, rfl, fun _ => id⟩
        · exact ⟨d, List.mem_cons_of_mem _ hd, rfl, fun _ => id⟩
      tidy := fun d hd => by
        rcases List.mem_cons.mp hd with rfl | hd
        · have ht := h.steady.tidy s'.draft List.mem_cons_self
          exact ⟨ht.pooled.congr rfl rfl, hfew, ht.captures, ht.distinct⟩
        · exact h.steady.tidy d (List.mem_cons_of_mem _ hd)
      settled := hsettled
      around := h.steady.around
      marks := h.steady.marks }
  outer := h.outer
  kind := h.kind
  name := h.name
  code := h.code
  constants := h.constants
  captures := h.captures
  enclosing := h.enclosing
  kept := h.kept

/-! ### Steps -/

/-- A step that is started with `o` words of code, where `P` holds of the place, and goes on adds
words. `Q` holds of them, of the places before and after and of the answer, for every body that
the function may become. -/
def Makes (before : Heap) (o : Nat) (P : Site → Prop) (x : Compiler α)
    (Q : Body → Site → α → List UInt32 → Site → Prop) : Prop :=
  ∀ s a s', s.Steady before → s.draft.chunk.code.size = o → P s.site → x s = .ok a s' →
    ∃ w, s.Adds before s' w ∧ ∀ B : Body, B.Completes s' → Q B s.site a w s'.site

/-- A step that leaves the place as it is; what is said of its words is about the scope. -/
def Gives (before : Heap) (o : Nat) (x : Compiler α)
    (Q : Body → Scope → α → List UInt32 → Prop) : Prop :=
  Makes before o (fun _ => True) x fun B g a w h => h = g ∧ Q B g.scope a w

section Rules

variable {P K : Site → Prop} {x : Compiler α} {f : α → Compiler β}
  {Q : Body → Site → α → List UInt32 → Site → Prop}
  {R : Body → Site → β → List UInt32 → Site → Prop}
  {S : Body → Scope → α → List UInt32 → Prop} {T : Body → Scope → β → List UInt32 → Prop}

/-- Less may be said, where more holds. -/
theorem Makes.imp {Q' : Body → Site → α → List UInt32 → Site → Prop}
    (h : Makes before o K x Q') (hP : ∀ g, P g → K g)
    (hQ : ∀ B g a w g', P g → Q' B g a w g' → Q B g a w g') : Makes before o P x Q := by
  intro s a s' hs ho hp hx
  obtain ⟨w, hadds, hw⟩ := h s a s' hs ho (hP _ hp) hx
  exact ⟨w, hadds, fun B hB => hQ B _ _ _ _ hp (hw B hB)⟩

/-- A step may be said to start from fewer sites. -/
theorem Makes.weaken (h : Makes before o K x Q) (hP : ∀ g, P g → K g) : Makes before o P x Q :=
  h.imp hP fun _ _ _ _ _ _ hw => hw

/-- What a step makes may depend on the place where it starts. -/
theorem Makes.at_ (h : ∀ g, P g → Makes before o (· = g) x Q) : Makes before o P x Q :=
  fun s a s' hs ho hp hx => h s.site hp s a s' hs ho rfl hx

/-- A step of either kind, wherever it stands. -/
theorem Gives.makes (h : Gives before o x S) :
    Makes before o P x fun B g a w h => h = g ∧ S B g.scope a w :=
  Makes.imp h (fun _ _ => trivial) fun _ _ _ _ _ _ hw => hw

/-- A step may be said to give less. -/
theorem Gives.imp {S' : Body → Scope → α → List UInt32 → Prop} (h : Gives before o x S')
    (hS : ∀ B scope a w, S' B scope a w → S B scope a w) : Gives before o x S :=
  Makes.imp h (fun _ => id) fun B g a w _ _ hw => ⟨hw.1, hS B g.scope a w hw.2⟩

/-- One step after another. -/
theorem Makes.then_ (hx : Makes before o P x Q)
    (hP : ∀ B g a v h, P g → Q B g a v h → K h)
    (hf : ∀ a v, Makes before (o + v.length) K (f a) fun B g b w h =>
      ∀ g₀, P g₀ → Q B g₀ a v g → R B g₀ b (v ++ w) h) : Makes before o P (x >>= f) R := by
  intro s b s' hs ho hp h
  obtain ⟨a, s₁, hx₁, hf₁⟩ := run_bind.mp h
  obtain ⟨v, hadds, hv⟩ := hx s a s₁ hs ho hp hx₁
  have hp₁ := hP _ _ _ _ _ hp (hv s₁.body s₁.body_completes)
  obtain ⟨w, hadds', hw⟩ := hf a v s₁ b s' hadds.steady (hadds.size.trans (ho ▸ rfl)) hp₁ hf₁
  exact ⟨v ++ w, hadds.trans hadds', fun B hB => hw B hB _ hp (hv B (hadds'.completes hB))⟩

/-- One step gives its words and the next those behind them. -/
theorem Gives.then_ (hx : Gives before o x S)
    (hf : ∀ a v, Gives before (o + v.length) (f a) fun B scope b w =>
      S B scope a v → T B scope b (v ++ w)) : Gives before o (x >>= f) T :=
  Makes.then_ hx (fun _ _ _ _ _ _ _ => trivial) fun a v =>
    Makes.imp (hf a v) (fun _ => id) fun _ _ _ _ _ _ hw _ _ hv => by
      obtain ⟨rfl, hv⟩ := hv
      exact ⟨hw.1, hw.2 hv⟩

/-- A step after one that found something out. -/
theorem Makes.finding {U : Body → Scope → α → Prop}
    (hx : Gives before o x fun B scope a w => w = [] ∧ U B scope a)
    (hf : ∀ a, Makes before o P (f a) fun B g b w h => U B g.scope a → R B g b w h) :
    Makes before o P (x >>= f) R := by
  intro s b s' hs ho hp h
  obtain ⟨a, s₁, hx₁, hf₁⟩ := run_bind.mp h
  obtain ⟨v, hadds, hv⟩ := hx s a s₁ hs ho trivial hx₁
  obtain ⟨hsite, rfl, -⟩ := hv s₁.body s₁.body_completes
  obtain ⟨w, hadds', hw⟩ := hf a s₁ b s' hadds.steady (hadds.size.trans ho) (hsite ▸ hp) hf₁
  refine ⟨w, by simpa using hadds.trans hadds', fun B hB => ?_⟩
  rw [← hsite]
  exact hw B hB (hsite ▸ (hv B (hadds'.completes hB)).2.2)

/-- What a step finds without a word may be used by the next. -/
theorem Gives.finding {U : Body → Scope → α → Prop}
    (hx : Gives before o x fun B scope a w => w = [] ∧ U B scope a)
    (hf : ∀ a, Gives before o (f a) fun B scope b w => U B scope a → T B scope b w) :
    Gives before o (x >>= f) T :=
  Makes.finding hx fun a => Makes.imp (hf a) (fun _ => id) fun _ _ _ _ _ _ hw hU => ⟨hw.1, hw.2 hU⟩

/-- A step after one that added nothing. -/
theorem Makes.silent {U : Body → Site → α → Site → Prop}
    (hx : Makes before o P x fun B g a w h => w = [] ∧ U B g a h)
    (hP : ∀ B g a h, P g → U B g a h → K h)
    (hf : ∀ a, Makes before o K (f a) fun B g b w h =>
      ∀ g₀, P g₀ → U B g₀ a g → R B g₀ b w h) : Makes before o P (x >>= f) R := by
  intro s b s' hs ho hp h
  obtain ⟨a, s₁, hx₁, hf₁⟩ := run_bind.mp h
  obtain ⟨v, hadds, hv⟩ := hx s a s₁ hs ho hp hx₁
  obtain ⟨rfl, hplace⟩ := hv s₁.body s₁.body_completes
  obtain ⟨w, hadds', hw⟩ := hf a s₁ b s' hadds.steady (hadds.size.trans ho)
    (hP _ _ _ _ hp hplace) hf₁
  exact ⟨w, hadds.trans hadds', fun B hB => hw B hB _ hp (hv B (hadds'.completes hB)).2⟩

/-- What a step is known to do is what it did. -/
theorem Does.run {a : α} {Q : α → State → Prop} (h : Does before s (x s) Q)
    (hx : x s = .ok a s') : s'.Live before ∧ Q a s' := by
  rw [hx] at h
  exact ⟨h.1, h.2.2⟩

/-- Giving a value back makes no word. -/
theorem makes_pure {a : α} (hQ : ∀ B g, P g → Q B g a [] g) : Makes before o P (pure a) Q := by
  intro s b s' hs ho hp h
  obtain ⟨rfl, rfl⟩ := run_pure.mp h
  exact ⟨[], .refl hs, fun B _ => hQ B _ hp⟩

/-- Giving a value back gives no word. -/
theorem gives_pure {a : α} (hS : ∀ B scope, S B scope a []) : Gives before o (pure a) S :=
  makes_pure fun B g _ => ⟨rfl, hS B g.scope⟩

/-- A step that only changes the place adds nothing. -/
theorem makes_resite {x : Compiler Unit} {Q : Body → Site → Unit → List UInt32 → Site → Prop}
    (f : Site → Site) (hx : ∀ s s', x s = .ok () s' → ∃ pos, s' = s.resite pos (f s.site))
    (hf : ∀ g, P g → g.locals.length ≤ maxLocals → Settled g.locals.tail →
      (f g).locals.length ≤ maxLocals ∧ Settled (f g).locals.tail)
    (hQ : ∀ B g, P g → Q B g () [] (f g)) : Makes before o P x Q := by
  intro s _ s' hs ho hp h
  obtain ⟨pos, rfl⟩ := hx s s' h
  obtain ⟨hfew, hsettled⟩ := hf s.site hp (hs.tidy s.draft List.mem_cons_self).locals hs.settled
  exact ⟨[], (State.Adds.refl hs).resite pos hsettled hfew, fun B _ => hQ B _ hp⟩

/-- Going past a token adds nothing. -/
theorem Makes.advance {x : Compiler β} (hx : Makes before o P x R) :
    Makes before o P (Compile.advance >>= fun _ => x) R := by
  intro s b s' hs ho hp h
  obtain ⟨_, s₁, h₁, h⟩ := run_bind.mp h
  obtain rfl := (EStateM.Result.ok.inj h₁).2
  have hadds : s.Adds before _ [] := (State.Adds.refl hs).resite (s.pos + 1) (g := s.site)
    hs.settled (hs.tidy s.draft List.mem_cons_self).locals
  obtain ⟨w, hadds', hw⟩ := hx _ b s' hadds.steady ho hp h
  exact ⟨w, hadds.trans hadds', hw⟩

/-- Going past a token gives no word. -/
theorem Gives.advance {x : Compiler β} (hx : Gives before o x T) :
    Gives before o (Compile.advance >>= fun _ => x) T := Makes.advance hx

/-- Going past a token makes no word. -/
theorem makes_advance {Q : Body → Site → Unit → List UInt32 → Site → Prop}
    (hQ : ∀ B g, P g → Q B g () [] g) : Makes before o P Compile.advance Q :=
  makes_resite id (fun s _ h => ⟨s.pos + 1, (EStateM.Result.ok.inj h).2.symm⟩)
    (fun _ _ hfew hsettled => ⟨hfew, hsettled⟩) hQ

/-- A word is added. -/
theorem makes_emit {i : Instr} {Q : Body → Site → Unit → List UInt32 → Site → Prop}
    (hQ : ∀ B g, P g → Q B g () [i.encode] g) : Makes before o P (emit i) Q := by
  intro s _ s' hs ho hp h
  obtain ⟨-, lines, -, rfl⟩ := (does_emit hs.live).run h
  exact ⟨_, (State.Adds.refl hs).recode _ (by simp), fun B _ => hQ B _ hp⟩

/-- Emitting an instruction gives its word. -/
theorem gives_emit {i : Instr} {S : Body → Scope → Unit → List UInt32 → Prop}
    (hS : ∀ B scope, S B scope () [i.encode]) : Gives before o (emit i) S :=
  makes_emit fun B g _ => ⟨rfl, hS B g.scope⟩

/-- A step after a word was added. -/
theorem Makes.emit {i : Instr} {x : Compiler β}
    (hx : Makes before (o + 1) P x fun B g b w h => R B g b (i.encode :: w) h) :
    Makes before o P (Compile.emit i >>= fun _ => x) R := by
  intro s b s' hs ho hp h
  obtain ⟨_, s₁, h₁, h⟩ := run_bind.mp h
  obtain ⟨-, lines, -, rfl⟩ := (does_emit hs.live).run h₁
  have hadds : s.Adds before _ [i.encode] :=
    (State.Adds.refl hs).recode lines (Array.toList_push ..)
  obtain ⟨w, hadds', hw⟩ := hx _ b s' hadds.steady (hadds.size.trans (ho ▸ rfl)) hp h
  exact ⟨_, hadds.trans hadds', hw⟩

/-- An instruction is given first and what follows behind it. -/
theorem Gives.emit {i : Instr} {x : Compiler β}
    (hx : Gives before (o + 1) x fun B scope b w => T B scope b (i.encode :: w)) :
    Gives before o (Compile.emit i >>= fun _ => x) T := Makes.emit hx

/-- Emitting instructions gives their words. -/
theorem gives_emitAll {is : List Instr} {S : Body → Scope → Unit → List UInt32 → Prop}
    (hS : ∀ B scope, S B scope () (is.map Instr.encode)) : Gives before o (emitAll is) S := by
  intro s _ s' hs ho _ h
  obtain ⟨-, lines, -, rfl⟩ := (does_emitAll hs.live).run h
  exact ⟨_, (State.Adds.refl hs).recode _ (by simp), fun B _ => ⟨rfl, hS B _⟩⟩

/-- The state is looked at. -/
theorem Makes.look {f : Site → α} {k : State → α} {x : α → Compiler β} (hk : ∀ s, k s = f s.site)
    (hx : ∀ a, Makes before o (fun g => P g ∧ f g = a) (x a) R) :
    Makes before o P (Compile.look k >>= x) R := by
  intro s b s' hs ho hp h
  obtain ⟨_, _, hlook, h⟩ := run_bind.mp h
  obtain ⟨rfl, rfl⟩ := run_look.mp hlook
  exact hx _ s b s' hs ho ⟨hp, (hk s).symm⟩ h

end Rules

end Compile

end ScriptMachine
