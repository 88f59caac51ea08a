import ScriptMachine.Proofs.Session.Entering
import ScriptMachine.Proofs.Session.Returns

/-!
# Captured variables in every session

In every state of a session the upvalues that stand for slots are listed by their slots, one for
each slot, and all slots are on the stack. Closing them changes nothing that is read. A step opens
no upvalue but a new one, so an upvalue that is closed stays closed as long as the session keeps it
alive, whatever is run, loaded or collected.
-/

namespace ScriptMachine.Machine

variable {settings : Settings} {journal : Journal} {sink : Sink} {m m' : Machine} {p p' : Phase}
  {W : World} {O : Outline} {x : Handle}

/-! ### The list of open upvalues -/

/-- The upvalues that stand for slots are listed by their slots, one for each, and every slot is on
the stack. -/
structure ListsOpen (m : Machine) : Prop where
  ordered : ∃ slots, List.Forall₂ m.heap.StandsFor m.openUpvalues.reverse slots ∧
    slots.Pairwise (· < ·)
  bounded : ∀ r j, m.heap.StandsFor r j → j < m.stack.size
  listed : ∀ r j, m.heap.StandsFor r j → r ∈ m.openUpvalues
  shared : ∀ r r' j, m.heap.StandsFor r j → m.heap.StandsFor r' j → r = r'

/-- A machine that is as a world and an outline say lists its open upvalues. -/
theorem Shows.listsOpen (hm : m.Shows W O) : m.ListsOpen where
  ordered := by
    obtain ⟨js, hstands, hsorted⟩ := hm.lists.ordered
    exact ⟨js.reverse, List.rel_reverse hstands, List.pairwise_reverse.mpr hsorted⟩
  bounded := fun r j hj => by
    obtain ⟨c, -, hslot⟩ := hm.lists.slot r (hm.lists.all r j hj) j hj
    rw [hm.size_stack]
    exact (List.getElem?_eq_some_iff.mp hslot).1
  listed := hm.lists.all
  shared := fun _ _ _ => hm.lists.shared

/-- Between two sources no upvalue is open. -/
theorem Rests.no_open (hm : m.Rests) : m.openUpvalues = [] ∧ ∀ r j, ¬ m.heap.StandsFor r j := by
  obtain ⟨V, hrests⟩ := hm
  have hnil := hrests.lists.eq_nil
  exact ⟨hnil, fun r j hj => absurd (hnil ▸ hrests.lists.all r j hj) List.not_mem_nil⟩

/-! ### Steps -/

/-- A step lists no upvalue as open that was kept alive before and was not listed. -/
theorem Ready.listed_step (hm : m.Ready) (hstep : Exec.step m = .ok .running m') :
    ∀ r ∈ m'.openUpvalues, m.Keeps r → r ∈ m.openUpvalues := by
  rcases Exec.step_cases m with ⟨e, m₁, hfault⟩ | ⟨f, i, h, hback, hi, halike, hreturn, hperform⟩
  · cases hfault.symm.trans hstep
  by_cases hno : i = .return_
  · exact fun r hr _ => (Exec.calm_return.ok ((hreturn hno).symm.trans hstep)).listed r hr
  obtain ⟨_, m₁, hcarried, hpure⟩ := Exec.exists_of_bind_ok ((hperform hno).symm.trans hstep)
  obtain ⟨-, rfl⟩ := EStateM.Result.ok.inj hpure
  obtain ⟨W, O, hshows, hpoised⟩ := hm
  cases hcode : i.shapesCode with
  | false =>
    exact fun r hr _ => ((Exec.mild_perform hcode).ok (hshows.sound.arena.congr halike)
      (hshows.sound.unmarked.congr halike) hcarried).listed r hr
  | true =>
    cases i with
    | closure k =>
      cases hpoised with
      | intro outer base lands =>
        obtain ⟨r, c, hclosed⟩ := hshows.closed base lands hi hstep
        exact hclosed.listed
    | class_ k =>
      obtain ⟨name, m₂, hconstant, hmakes⟩ := Exec.exists_of_bind_ok hcarried
      obtain rfl := Exec.constantHandle_eq_ok hconstant
      obtain ⟨r, m₃, hmade, hpush⟩ := Exec.exists_of_bind_ok hmakes
      obtain ⟨h', -, rfl⟩ := Exec.alloc_eq_ok hmade
      obtain ⟨-, rfl⟩ := EStateM.Result.ok.inj hpush
      exact fun _ hr _ => hr
    | inherit =>
      obtain ⟨v, w, y, r, s, c, -, -, -, -, -, hreshaped⟩ := Exec.inherit_eq_ok hcarried
      obtain ⟨h', rfl⟩ := hreshaped.rest
      exact fun _ hr _ => hr
    | method k =>
      obtain ⟨name, key, v, w, r, c, -, -, -, -, -, hreshaped⟩ := Exec.addMethod_eq_ok hcarried
      obtain ⟨h', rfl⟩ := hreshaped.rest
      exact fun _ hr _ => hr
    | _ => cases hcode

/-- Entering a source opens no upvalue. -/
theorem listed_load {source : String} (hdone : m.load source = (.unfinished, m')) :
    ∀ r ∈ m'.openUpvalues, r ∈ m.openUpvalues := by
  unfold load at hdone
  split at hdone
  · cases (Prod.mk.inj hdone).1
  · cases (Prod.mk.inj hdone).1
  · next function m₁ hcompiled =>
    obtain ⟨-, rfl⟩ := Prod.mk.inj hcompiled
    split at hdone
    · next hentered =>
      obtain ⟨-, rfl⟩ := Prod.mk.inj hdone
      obtain ⟨_, m₂, hpush, hmakes⟩ := Exec.exists_of_bind_ok hentered
      obtain ⟨y, m₃, hmade, hdrops⟩ := Exec.exists_of_bind_ok hmakes
      obtain ⟨h', -, rfl⟩ := Exec.alloc_eq_ok hmade
      obtain ⟨_, m₄, hdrop, hcalls⟩ := Exec.exists_of_bind_ok hdrops
      obtain ⟨_, m₅, hpush', hcall⟩ := Exec.exists_of_bind_ok hcalls
      exact fun r hr => ((Exec.calm_push _).ok hpush).listed r (((Exec.calm_drop).ok hdrop).listed r
        (((Exec.calm_push _).ok hpush').listed r (((Exec.calm_callClosure y 0).ok hcall).listed r hr)))
    · next halt m₂ hstopped =>
      cases halt with
      | fault f => cases (Prod.mk.inj hdone).1
      | error e =>
        rw [settle] at hdone
        split at hdone <;> cases (Prod.mk.inj hdone).1

/-! ### Sessions -/

/-- Whatever comes next opens no upvalue that is kept alive and closed. -/
theorem Goes.not_opened (h : Goes p m p' m') (hm : Reached settings journal sink p m)
    (hx : m.Keeps x) (hclosed : ∀ j, ¬ m.heap.StandsFor x j) : ∀ j, ¬ m'.heap.StandsFor x j := by
  have hm' := h.reached hm
  cases p' with
  | resting => exact (Rests.no_open hm'.inPhase).2 x
  | running =>
    obtain ⟨W', O', hshows'⟩ := hm'.inPhase.shows
    -- what is listed was listed before, and stood for a slot then
    suffices hlisted : x ∈ m'.openUpvalues → x ∈ m.openUpvalues by
      intro j hj
      obtain ⟨W, O, hshows⟩ := hm.inPhase.shows
      obtain ⟨slots, hstands, -⟩ := hshows.listsOpen.ordered
      obtain ⟨i, -, hi⟩ := exists_of_mem_left hstands
        (List.mem_reverse.mpr (hlisted (hshows'.lists.all x j hj)))
      exact hclosed i hi
    cases h with
    | @stepped _ _ outcome _ done phase =>
      have hrunning : (m.resume 1).1.phase? = some .running := by rw [done]; exact phase
      have hstep := follows_resume hrunning
      rw [done] at hstep
      exact fun hlisted => hm.inPhase.listed_step hstep x hlisted hx
    | @loaded _ _ source outcome _ done phase =>
      obtain rfl : outcome = .unfinished := by
        cases outcome with
        | unfinished => rfl
        | _ => cases phase
      exact listed_load done x
    | idled idles =>
      cases idles with
      | ticked | tookOutput | tookEvents => exact id

/-- As long as the session keeps it alive, a closed upvalue is not opened. -/
theorem Lives.not_opened (h : Lives x p m p' m') (hm : Reached settings journal sink p m)
    (hclosed : ∀ j, ¬ m.heap.StandsFor x j) : ∀ j, ¬ m'.heap.StandsFor x j := by
  induction h with
  | refl => exact hclosed
  | tail before keeps next ih => exact next.not_opened (before.reached hm) keeps (ih hm hclosed)

/-- Captured variables in every session: the upvalues that stand for slots are listed, and none
does between two sources; closing from a boundary on closes exactly the upvalues of the slots from
there on and changes nothing that is read, at every instruction that closes and when an error is
reported. Operations lead from each machine of the session to the next one, and each of them leaves
a closed upvalue closed or frees it; in no machine that comes later is a closed upvalue open, as long
as it was kept alive up to there. -/
theorem sessions_keep_captured (settings : Settings) (journal : Journal) (sink : Sink) :
    (∀ p m, Reached settings journal sink p m → m.ListsOpen ∧
      (p = .resting → m.openUpvalues = [] ∧ ∀ r j, ¬ m.heap.StandsFor r j) ∧
      ∀ boundary, ∃ m', Exec.closeUpvalues boundary m = .ok () m' ∧ ClosedFrom boundary m m') ∧
    (∀ m, Reached settings journal sink .running m →
      (∀ i boundary, m.next? = some i → Exec.closingFrom? m i = some boundary →
        ∀ progress m', Exec.step m = .ok progress m' → ClosedFrom boundary m m') ∧
      ∀ fuel e m₁, Exec.run fuel m = .error (.error e) m₁ →
        ∃ f m', Exec.failure e m₁ = .ok f m' ∧ ClosedFrom 0 m₁ m') ∧
    ∀ p m, Reached settings journal sink p m →
      (∀ p' m', Goes p m p' m' → m.memory.Path m'.memory) ∧
      (∀ s charge s', m.memory.Path s → Memory.Operation s charge s' → ∀ r v,
        s.heap.object? r = some (.upvalue (.closed v)) →
        (∃ v', s'.heap.object? r = some (.upvalue (.closed v'))) ∨ s'.heap.object? r = none) ∧
      ∀ r v, m.heap.object? r = some (.upvalue (.closed v)) → ∀ p' m', Lives r p m p' m' →
        ∀ j, ¬ m'.heap.StandsFor r j := by
  refine ⟨fun p m hm => ?_, fun m hm => ⟨fun i boundary hi hb progress m' hstep => ?_,
    fun fuel e m₁ hrun => ?_⟩, fun p m hm => ⟨fun p' m' hgoes => hgoes.path,
    fun s charge s' hpath hop r v hr => ?_, fun r v hr p' m' hlives => ?_⟩⟩
  · obtain ⟨W, O, hshows⟩ := hm.inPhase.shows
    refine ⟨hshows.listsOpen, fun hp => ?_, fun boundary =>
      Exec.exists_closeUpvalues_closing boundary hshows⟩
    subst hp
    exact Rests.no_open hm.inPhase
  · have hdoes := Exec.does_step_closing hm.inPhase hi hb
    rw [hstep] at hdoes
    exact hdoes
  · have hdoes := Exec.does_run fuel hm.inPhase
    rw [hrun] at hdoes
    obtain ⟨W, O, hshows⟩ := hdoes
    exact Exec.exists_failure_closing e hshows
  · obtain ⟨charged, levels, haccounts⟩ := hm.accounts
    obtain ⟨harena, hmem, hbalanced⟩ := haccounts.balanced
    obtain ⟨charged', levels', hrun⟩ := hpath.run
    exact hop.closed_stays (hrun.balanced harena hmem hbalanced).1 hr
  · refine hlives.not_opened hm fun j hj => ?_
    cases hr.symm.trans hj

/-- The first of the open upvalues with its slot, if the machine is at the instruction `i` and that
closes from a boundary on which is not above the slot. -/
def closing? (m : Machine) (i : Instr) : Option (Handle × Nat × Nat) := do
  let boundary ← Exec.closingFrom? m i
  let r ← m.openUpvalues.head?
  let j ← (m.heap.openSlot r).toOption
  if m.next? = some i ∧ boundary ≤ j then some (r, boundary, j) else none

/-- What is found to be closed is closed. -/
theorem of_closing? {i : Instr} {r : Handle} {boundary j : Nat}
    (h : m.closing? i = some (r, boundary, j)) : m.next? = some i ∧
      Exec.closingFrom? m i = some boundary ∧ boundary ≤ j ∧ m.heap.StandsFor r j := by
  obtain ⟨b, hb, h⟩ := Option.bind_eq_some_iff.mp h
  obtain ⟨u, -, h⟩ := Option.bind_eq_some_iff.mp h
  obtain ⟨k, hk, h⟩ := Option.bind_eq_some_iff.mp h
  split at h
  · next hat =>
    simp only [Option.some.injEq, Prod.mk.injEq] at h
    obtain ⟨rfl, rfl, rfl⟩ := h
    refine ⟨hat.1, hb, hat.2, Heap.standsFor_of_openSlot ?_⟩
    cases hslot : m.heap.openSlot u with
    | ok slot =>
      rw [hslot] at hk
      exact congrArg _ (Option.some.inj hk)
    | error e =>
      rw [hslot] at hk
      cases hk
  · cases h

/-- A script in which closures capture a local of a function that returns and one of a block that
ends. -/
def capturing : String :=
  "def f() \x7b let x = 1; def g() \x7b return x; \x7d return g; \x7d let k = f(); " ++
  "\x7b let y = 2; def h() \x7b return y; \x7d k = h; \x7d while (true) \x7b\x7d"

/-- The local that a function's closure has captured is closed when the function returns, and stays
closed while the session goes on; the one that a block's closure has captured is closed at the end of
the block. -/
theorem captured_locals_closed : ∃ (m₁ m₂ m₃ m₄ m₅ : Machine) (r₁ r₂ : Handle) (b₁ b₂ j₁ j₂ : Nat),
    m₁.next? = some .return_ ∧ Exec.closingFrom? m₁ .return_ = some b₁ ∧ b₁ ≤ j₁ ∧
    m₁.heap.StandsFor r₁ j₁ ∧ Exec.step m₁ = .ok .running m₂ ∧ ClosedFrom b₁ m₁ m₂ ∧
    (∃ v, m₂.heap.object? r₁ = some (.upvalue (.closed v))) ∧
    Lives r₁ .running m₂ .running m₃ ∧ (∀ j, ¬ m₃.heap.StandsFor r₁ j) ∧
    m₄.next? = some .closeUpvalue ∧ Exec.closingFrom? m₄ .closeUpvalue = some b₂ ∧ b₂ ≤ j₂ ∧
    m₄.heap.StandsFor r₂ j₂ ∧ Exec.step m₄ = .ok .running m₅ ∧ ClosedFrom b₂ m₄ m₅ ∧
    ∃ v, m₅.heap.object? r₂ = some (.upvalue (.closed v)) := by
  have hruns : (create Settings.standard Journal.off Sink.unlimited).toOption.any (fun m =>
      let loaded := m.load capturing
      let called := loaded.2.resume 7
      let returned := called.2.resume 1
      let ending := returned.2.resume 7
      decide (loaded.1.phase? = some .running) && decide (called.1.phase? = some .running) &&
        decide (returned.1.phase? = some .running) &&
        decide ((returned.2.resume 1).1.phase? = some .running) &&
        decide (ending.1.phase? = some .running) &&
        decide ((ending.2.resume 1).1.phase? = some .running) &&
        (called.2.closing? .return_).any (fun c =>
          ((returned.2.heap.collect returned.2.roots).object? c.1).isSome) &&
        (ending.2.closing? .closeUpvalue).isSome) = true := by
    decide +kernel
  obtain ⟨m, hcreated, hruns⟩ := exists_created hruns
  simp only [Bool.and_eq_true, decide_eq_true_eq, and_assoc] at hruns
  obtain ⟨hload, hcalled, hreturned, hnext, hending, hended, hreturns, hends⟩ := hruns
  have h₁ : Reached Settings.standard Journal.off Sink.unlimited .running
      ((m.load capturing).2.resume 7).2 :=
    ((Reached.created hcreated).loaded rfl hload).resumed rfl hcalled
  generalize ((m.load capturing).2.resume 7).2 = m₁ at *
  have hstep₁ := follows_resume hreturned
  have h₂ : Reached Settings.standard Journal.off Sink.unlimited .running (m₁.resume 1).2 :=
    h₁.resumed rfl hreturned
  generalize (m₁.resume 1).2 = m₂ at *
  have h₄ : Reached Settings.standard Journal.off Sink.unlimited .running (m₂.resume 7).2 :=
    h₂.resumed rfl hending
  generalize (m₂.resume 7).2 = m₄ at *
  have hstep₂ := follows_resume hended
  obtain ⟨-, hcloses, hstays⟩ :=
    sessions_keep_captured Settings.standard Journal.off Sink.unlimited
  obtain ⟨⟨r₁, b₁, j₁⟩, hreturns, hkept⟩ := Option.any_eq_true _ _ |>.mp hreturns
  obtain ⟨⟨r₂, b₂, j₂⟩, hends⟩ := Option.isSome_iff_exists.mp hends
  obtain ⟨hi₁, hb₁, hle₁, hstands₁⟩ := of_closing? hreturns
  obtain ⟨hi₂, hb₂, hle₂, hstands₂⟩ := of_closing? hends
  have hclosed₁ := (hcloses m₁ h₁).1 _ b₁ hi₁ hb₁ _ m₂ hstep₁
  have hclosed₂ := (hcloses m₄ h₄).1 _ b₂ hi₂ hb₂ _ _ hstep₂
  obtain ⟨v, hv⟩ := hclosed₁.closed r₁ j₁ hstands₁ hle₁
  have hkeeps : m₂.Keeps r₁ := by
    obtain ⟨W, O, hshows⟩ := h₂.inPhase.shows
    obtain ⟨o, ho⟩ := Option.isSome_iff_exists.mp hkept
    exact (Heap.reachable_of_object?_collect hshows.sound.unmarked ho).1
  have hlives : Lives r₁ .running m₂ .running (m₂.resume 1).2 :=
    .tail .refl hkeeps (.stepped rfl hnext)
  exact ⟨m₁, m₂, _, m₄, _, r₁, r₂, b₁, b₂, j₁, j₂, hi₁, hb₁, hle₁, hstands₁, hstep₁, hclosed₁,
    ⟨v, hv⟩, hlives, (hstays .running m₂ h₂).2.2 r₁ v hv _ _ hlives, hi₂, hb₂, hle₂, hstands₂, hstep₂,
    hclosed₂, hclosed₂.closed r₂ j₂ hstands₂ hle₂⟩

end ScriptMachine.Machine
