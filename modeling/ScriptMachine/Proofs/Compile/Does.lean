import ScriptMachine.Compile.Statement
import ScriptMachine.Proofs.Heap.Groves
import ScriptMachine.Proofs.Heap.Lasting
import ScriptMachine.Proofs.Heap.World

/-!
# What a step of the compiler does

While a source is compiled, the heap stays sound, the objects of the unfinished functions and of
the caller stay alive, and the caller's objects stay as they are, also when a step stops with a
compile error. The only fault is an exhausted arena. `Does` says this of one step together with
what else holds when it succeeds; steps in sequence are reasoned about one after the other.
-/

namespace ScriptMachine.Compile

/-- The functions in the making, the innermost first. -/
def State.drafts (s : State) : List Draft := s.draft :: s.enclosing

/-- The constants of the functions in the making. -/
def State.constants (s : State) : List Value := s.drafts.flatMap (·.chunk.constants.toList)

/-- The roots of the compiler are what its drafts and its caller keep alive. -/
theorem State.mem_roots {s : State} {r : Handle} :
    r ∈ s.roots ↔ (∃ d ∈ s.drafts, r ∈ d.handles) ∨ r ∈ s.outer := by
  simp only [roots, drafts, List.mem_append, List.mem_flatMap, List.mem_reverse, List.mem_cons,
    exists_eq_or_imp]
  exact or_congr_left Or.comm

/-- What the constants of the drafts refer to is a root. -/
theorem State.constants_roots {s : State} :
    ∀ v ∈ s.constants, ∀ r, v.toHandle? = some r → r ∈ s.roots := by
  intro v hv r hr
  obtain ⟨d, hd, hvd⟩ := List.mem_flatMap.mp hv
  refine mem_roots.mpr (.inl ⟨d, hd, List.mem_append_right _ ?_⟩)
  exact List.mem_filterMap.mpr ⟨v, hvd, hr⟩

/-- The kinds of object that are made while a source is compiled. -/
def IsCompiled (o : Object) : Prop := (∃ s, o = .string s) ∨ ∃ f, o = .function f

/-- The heap is sound and has what is kept alive; the names of functions are texts; the caller's
objects are as they were on the heap `before`, and only texts and functions are new. -/
structure State.Live (before : Heap) (s : State) : Prop where
  sound : s.heap.Sound
  covers : s.heap.Covers s.roots
  named : ∀ d ∈ s.drafts, ∀ r, d.name = some r → ∃ text, s.heap.object? r = some (.string text)
  kept : ∀ x, before.Reachable s.outer x → s.heap.object? x = before.object? x
  made : ∀ x o, s.heap.object? x = some o → before.object? x = some o ∨ IsCompiled o
  retains : before.Retains [] s.heap

/-- What no step takes back. -/
structure State.Later (s s' : State) : Prop where
  outer : s'.outer = s.outer
  tokens : s'.tokens = s.tokens
  errors : s.errors.size ≤ s'.errors.size

/-- Every state is later than itself. -/
@[refl] theorem State.Later.refl (s : State) : s.Later s := ⟨rfl, rfl, Nat.le_refl _⟩

/-- Later than later is later. -/
theorem State.Later.trans {s s' s'' : State} (h : s.Later s') (h' : s'.Later s'') :
    s.Later s'' :=
  ⟨h'.outer.trans h.outer, h'.tokens.trans h.tokens, Nat.le_trans h.errors h'.errors⟩

/-- Without errors now, there were none before. -/
theorem State.Later.clean {s s' : State} (h : s.Later s') (hs : s'.errors = #[]) :
    s.errors = #[] := by
  have := h.errors
  rw [hs, Array.size_empty, Nat.le_zero] at this
  exact Array.eq_empty_of_size_eq_zero this

/-- The drafts of `s'` keep nothing alive that those of `s` do not. -/
def State.DraftsWithin (s s' : State) : Prop :=
  ∀ d' ∈ s'.drafts, ∃ d ∈ s.drafts, d'.name = d.name ∧ ∀ r ∈ d'.handles, r ∈ d.handles

/-- A change of the state that needs nothing more to be alive. -/
theorem State.Live.change {before : Heap} {s s' : State} (hl : s.Live before)
    (hheap : s.heap.Alike s'.heap) (houter : s'.outer = s.outer) (hd : s.DraftsWithin s') :
    s'.Live before := by
  have hroots (r : Handle) (hr : r ∈ s'.roots) : r ∈ s.roots := by
    rw [mem_roots] at hr ⊢
    rcases hr with ⟨d', hd', hr⟩ | hr
    · obtain ⟨d, hd, -, hsub⟩ := hd d' hd'
      exact .inl ⟨d, hd, hsub r hr⟩
    · exact .inr (houter ▸ hr)
  refine ⟨hl.sound.congr hheap, ?_, ?_, ?_, fun x o hx => hl.made x o (hheap.object? x ▸ hx),
    hl.retains.congr hheap⟩
  · exact (hl.covers.mono hroots).congr fun x _ => hheap.object? x
  · intro d' hd' r hr
    obtain ⟨d, hd, hname, -⟩ := hd d' hd'
    rw [hheap.object?]
    exact hl.named d hd r (hname ▸ hr)
  · intro x hx
    rw [hheap.object?]
    exact hl.kept x (houter ▸ hx)

/-- How deep forms are nested does not matter to the heap. -/
theorem State.Live.level {before : Heap} {s : State} (hl : s.Live before) (n : Nat) :
    ({ s with nesting := n }).Live before :=
  ⟨hl.sound, hl.covers, hl.named, hl.kept, hl.made, hl.retains⟩

/-- What a result of a step started in `s` has to be: a success with `Q`, a compile error, or
an exhausted arena. -/
def Does {α : Type} (before : Heap) (s : State) (result : EStateM.Result Stop State α)
    (Q : α → State → Prop) : Prop :=
  match result with
  | .ok a s' => s'.Live before ∧ s.Later s' ∧ Q a s'
  | .error (.problem _) s' => s'.Live before ∧ s.Later s'
  | .error (.fault f) _ => f = .arenaFull

section Rules

variable {α β : Type} {before : Heap} {s : State} {Q : α → State → Prop}

/-- A success. -/
theorem Does.ok {a : α} {s' : State} (hl : s'.Live before) (hlater : s.Later s')
    (hpost : Q a s') : Does before s (.ok a s') Q := ⟨hl, hlater, hpost⟩

/-- Less may be said of a success. -/
theorem Does.imp {result : EStateM.Result Stop State α} {R : α → State → Prop}
    (h : Does before s result Q)
    (himp : ∀ a s', s'.Live before → s.Later s' → Q a s' → R a s') :
    Does before s result R := by
  match result, h with
  | .ok a s', ⟨hl, hlater, hpost⟩ => exact ⟨hl, hlater, himp a s' hl hlater hpost⟩
  | .error (.problem _) s', h => exact h
  | .error (.fault f) s', h => exact h

/-- What started later did not take back anything. -/
theorem Does.earlier {s₀ : State} {result : EStateM.Result Stop State α} (hlater : s₀.Later s)
    (h : Does before s result Q) : Does before s₀ result Q := by
  match result, h with
  | .ok a s', ⟨hl, hlater', hpost⟩ => exact ⟨hl, hlater.trans hlater', hpost⟩
  | .error (.problem _) s', ⟨hl, hlater'⟩ => exact ⟨hl, hlater.trans hlater'⟩
  | .error (.fault f) s', h => exact h

/-- One step after another. -/
theorem Does.bind {x : Compiler α} {f : α → Compiler β} {R : β → State → Prop}
    (hx : Does before s (x s) Q)
    (hf : ∀ a s', s'.Live before → s.Later s' → Q a s' → Does before s' (f a s') R) :
    Does before s ((x >>= f) s) R := by
  show Does before s (EStateM.bind x f s) R
  unfold EStateM.bind
  match hr : x s with
  | .ok a s' =>
    rw [hr] at hx
    exact (hf a s' hx.1 hx.2.1 hx.2.2).earlier hx.2.1
  | .error (.problem _) s' =>
    rw [hr] at hx
    exact hx
  | .error (.fault f) s' =>
    rw [hr] at hx
    exact hx

/-- Nothing is done. -/
theorem does_pure {a : α} (hl : s.Live before) (hpost : Q a s) :
    Does before s ((pure a : Compiler α) s) Q := ⟨hl, .refl s, hpost⟩

/-- The state is read. -/
theorem does_look {f : State → α} (hl : s.Live before) (hpost : Q (f s) s) :
    Does before s (look f s) Q := ⟨hl, .refl s, hpost⟩

/-- A compile error stops. -/
theorem does_failHere {p : Problem} (hl : s.Live before) :
    Does before s ((failHere p : Compiler α) s) Q := ⟨hl, .refl s⟩

/-- A compile error stops. -/
theorem does_failBefore {p : Problem} (hl : s.Live before) :
    Does before s ((failBefore p : Compiler α) s) Q := ⟨hl, .refl s⟩

/-- A compile error stops. -/
theorem does_failExpected {what : Expectation} (hl : s.Live before) :
    Does before s ((failExpected what : Compiler α) s) Q :=
  (does_look (Q := fun _ s' => s' = s) hl rfl).bind fun _ _ hl' _ _ => does_failHere hl'

/-- The state is changed without a need for more to be alive. -/
theorem does_modify {f : State → State} {Q : Unit → State → Prop} (hl : s.Live before)
    (hheap : s.heap.Alike (f s).heap) (hlater : s.Later (f s)) (hd : s.DraftsWithin (f s))
    (hpost : Q () (f s)) : Does before s ((modify f : Compiler Unit) s) Q :=
  ⟨hl.change hheap hlater.outer hd, hlater, hpost⟩

/-- A form one level deeper. -/
theorem does_nested {form : Compiler α} (hl : s.Live before)
    (hx : s.deeper.Live before → Does before s.deeper (form s.deeper) fun a s' => Q a s'.shallower) :
    Does before s (nested form s) Q := by
  rcases Nat.lt_or_ge s.nesting maxNesting with hlt | hfull
  · have h := hx (hl.level _)
    match hr : form s.deeper with
    | .ok a s' =>
      rw [hr] at h
      rw [nested_ok hlt hr]
      exact .ok (h.1.level _) ⟨h.2.1.outer, h.2.1.tokens, h.2.1.errors⟩ h.2.2
    | .error (.problem e) s' =>
      rw [hr] at h
      rw [nested_error hlt hr]
      exact ⟨h.1.level _, h.2.outer, h.2.tokens, h.2.errors⟩
    | .error (.fault f) s' =>
      rw [hr] at h
      rw [nested_error hlt hr]
      exact h
  · rw [nested_full hfull]
    exact does_failHere hl

end Rules

end ScriptMachine.Compile
