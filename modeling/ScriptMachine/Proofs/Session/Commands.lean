import ScriptMachine.Proofs.Session.Safety

/-!
# What a machine answers

A machine at rest is told to run a source, to list one, or to collect garbage, and answers with what
came of it and what was printed meanwhile. The clock may tell another time after any number of
instructions, so a source is run in slices, each with its own time. Nothing follows a fault or a
source that goes on running.
-/

namespace ScriptMachine

/-- What a machine is told to do; `slices` are times of the clock, each with the number of
instructions it lasts for. -/
inductive Command
  | interpret (source : String) (slices : List (Float × Nat))
  | disassemble (source : String)
  | collect

/-- What a machine answers; a source that was run comes with the text it printed. -/
inductive Reply
  | ran (outcome : Outcome) (printed : String)
  | listed (listing : Machine.Disassembly)
  | collected

/-- The fault that a reply tells of. -/
def Reply.fault? : Reply → Option Fault
  | ran (.fault f) _ => some f
  | listed (.fault f) => some f
  | _ => none

/-- Whether a reply is the last one. -/
def Reply.isLast : Reply → Bool
  | ran (.fault _) _ => true
  | ran .unfinished _ => true
  | listed (.fault _) => true
  | _ => false

/-- Whether code of the source was run. -/
def Reply.ranCode : Reply → Bool
  | ran (.refused _) _ => false
  | ran _ _ => true
  | listed _ => false
  | collected => false

/-- Whether a reply is not about a collection. -/
def Reply.isSeen : Reply → Bool
  | collected => false
  | _ => true

/-- Whether a command is not to collect garbage. -/
def Command.isSeen : Command → Bool
  | collect => false
  | _ => true

namespace Machine

/-- Runs on in slices until the source ends. -/
def runSlices (m : Machine) : List (Float × Nat) → Outcome × Machine
  | [] => (.unfinished, m)
  | (now, fuel) :: rest =>
    match { m with clock := now }.resume fuel with
    | (.unfinished, m) => m.runSlices rest
    | done => done

/-- Loads a source and runs it in slices. -/
def interpretSlices (m : Machine) (source : String) (slices : List (Float × Nat)) :
    Outcome × Machine :=
  match m.load source with
  | (.unfinished, m) => m.runSlices slices
  | done => done

/-- Carries out a command; the printed text is taken from the machine. -/
def respond (m : Machine) : Command → Reply × Machine
  | .interpret source slices =>
    let (outcome, m) := m.interpretSlices source slices
    let (printed, m) := m.takeOutput
    (.ran outcome printed, m)
  | .disassemble source =>
    let (listing, m) := m.disassemble source
    (.listed listing, m)
  | .collect => (.collected, m.collectGarbage)

/-- Carries out commands in their order, up to the last reply. -/
def session (m : Machine) : List Command → List Reply
  | [] => []
  | c :: rest =>
    let (reply, m) := m.respond c
    if reply.isLast then [reply] else reply :: m.session rest

variable {settings : Settings} {journal : Journal} {sink : Sink} {m m' : Machine}

/-- After slices that a run does not end in it goes on with the next ones. -/
theorem runSlices_append {front back : List (Float × Nat)}
    (hfront : m.runSlices front = (.unfinished, m')) :
    m.runSlices (front ++ back) = m'.runSlices back := by
  induction front generalizing m with
  | nil =>
    obtain ⟨-, rfl⟩ := Prod.mk.inj hfront
    rfl
  | cons slice front ih =>
    obtain ⟨now, fuel⟩ := slice
    rw [runSlices] at hfront
    rw [List.cons_append, runSlices]
    generalize { m with clock := now }.resume fuel = done at hfront
    obtain ⟨o, m₁⟩ := done
    cases o with
    | unfinished => exact ih hfront
    | _ => cases (Prod.mk.inj hfront).1

/-- What ends a run in some slices ends it whatever comes after them. -/
theorem runSlices_append_of_end {front back : List (Float × Nat)}
    (hend : (m.runSlices front).1 ≠ .unfinished) :
    m.runSlices (front ++ back) = m.runSlices front := by
  induction front generalizing m with
  | nil => exact absurd rfl hend
  | cons slice front ih =>
    obtain ⟨now, fuel⟩ := slice
    rw [runSlices] at hend
    rw [List.cons_append, runSlices, runSlices]
    generalize { m with clock := now }.resume fuel = done at hend
    obtain ⟨o, m₁⟩ := done
    cases o with
    | unfinished => exact ih hend
    | _ => rfl

/-- A source that is loaded is run. -/
theorem interpretSlices_of_loaded {L : Machine} {source : String} (slices : List (Float × Nat))
    (hload : m.load source = (.unfinished, L)) :
    m.interpretSlices source slices = L.runSlices slices := by
  rw [interpretSlices, hload]

/-- A source that is too much for the arena is not run. -/
theorem interpretSlices_of_full {L : Machine} {source : String} (slices : List (Float × Nat))
    (hload : m.load source = (.fault .arenaFull, L)) :
    m.interpretSlices source slices = (.fault .arenaFull, L) := by
  rw [interpretSlices, hload]

/-- Loading alone brings no source to its end. -/
theorem load_ne_ok (m m' : Machine) (source : String) : m.load source ≠ (.ok, m') := by
  intro hload
  unfold load at hload
  split at hload
  · cases (Prod.mk.inj hload).1
  · cases (Prod.mk.inj hload).1
  · split at hload
    · cases (Prod.mk.inj hload).1
    · next halt m₂ _ =>
      have hsettled := congrArg Prod.fst hload
      unfold settle at hsettled
      split at hsettled
      · cases hsettled
      · split at hsettled <;> cases hsettled

/-- A source that runs to its end was loaded. -/
theorem exists_loaded {source : String} {slices : List (Float × Nat)}
    (hdone : m.interpretSlices source slices = (.ok, m')) :
    ∃ L, m.load source = (.unfinished, L) ∧ L.runSlices slices = (.ok, m') := by
  rw [interpretSlices] at hdone
  generalize hload : m.load source = loaded at hdone
  obtain ⟨o, L⟩ := loaded
  cases o with
  | unfinished => exact ⟨L, rfl, hdone⟩
  | ok => exact absurd hload (load_ne_ok m L source)
  | refused | failed | fault => cases (Prod.mk.inj hdone).1

/-- What a run in slices comes to. -/
theorem leads_runSlices (slices : List (Float × Nat)) (hm : m.Ready) :
    Leads (m.runSlices slices).1 (m.runSlices slices).2 := by
  induction slices generalizing m with
  | nil => exact .unfinished hm
  | cons slice rest ih =>
    obtain ⟨now, fuel⟩ := slice
    have hready : InPhase .running { m with clock := now } :=
      InPhase.imp (p := .running) hm fun W O hm => ⟨{ hm.toTyped with }, hm.lists⟩
    have hleads := leads_resume fuel hready
    rw [runSlices]
    generalize { m with clock := now }.resume fuel = done at hleads
    obtain ⟨outcome, m₁⟩ := done
    cases hleads with
    | unfinished ready => exact ih ready
    | ok rests => exact .ok rests
    | refused rests => exact .refused rests
    | failed rests => exact .failed rests
    | full => exact .full

/-- What a run in slices leads to is reached. -/
theorem Reached.runSlices {slices : List (Float × Nat)} {outcome : Outcome} {ph : Phase}
    (hm : Reached settings journal sink .running m) (hdone : m.runSlices slices = (outcome, m'))
    (phase : outcome.phase? = some ph) : Reached settings journal sink ph m' := by
  induction slices generalizing m with
  | nil =>
    obtain ⟨rfl, rfl⟩ := Prod.mk.inj hdone
    cases phase
    exact hm
  | cons slice rest ih =>
    obtain ⟨now, fuel⟩ := slice
    rw [Machine.runSlices] at hdone
    generalize hresume : { m with clock := now }.resume fuel = done at hdone
    obtain ⟨o, m₂⟩ := done
    cases o with
    | unfinished => exact ih ((hm.ticked now).resumed hresume rfl) hdone
    | _ =>
      obtain ⟨rfl, rfl⟩ := Prod.mk.inj hdone
      exact (hm.ticked now).resumed hresume phase

/-- A source that is run in slices leads to a phase or to a full heap. -/
theorem leads_interpretSlices (source : String) (slices : List (Float × Nat)) (hm : m.Rests) :
    Leads (m.interpretSlices source slices).1 (m.interpretSlices source slices).2 := by
  have hload := leads_load source hm
  rw [interpretSlices]
  generalize m.load source = loaded at hload
  obtain ⟨outcome, m₁⟩ := loaded
  cases hload with
  | unfinished ready => exact leads_runSlices slices ready
  | ok rests => exact .ok rests
  | refused rests => exact .refused rests
  | failed rests => exact .failed rests
  | full => exact .full

/-- A machine at rest meets no fault but an exhausted arena, and rests again after every reply but
the last. -/
theorem Rests.respond (hm : m.Rests) (c : Command) :
    (∀ f, (m.respond c).1.fault? = some f → f = .arenaFull) ∧
      ((m.respond c).1.isLast = false → (m.respond c).2.Rests) := by
  cases c with
  | interpret source slices =>
    have hleads := leads_interpretSlices source slices hm
    have htaken {m : Machine} (hm : m.Rests) : m.takeOutput.2.Rests :=
      InPhase.imp (p := .resting) hm fun W O hm => ⟨{ hm.toTyped with }, hm.lists⟩
    rw [Machine.respond]
    generalize m.interpretSlices source slices = done at hleads
    obtain ⟨outcome, m₁⟩ := done
    cases hleads with
    | full => exact ⟨fun f hf => (Option.some.inj hf).symm, nofun⟩
    | unfinished _ => exact ⟨nofun, nofun⟩
    | ok rests => exact ⟨nofun, fun _ => htaken rests⟩
    | refused rests => exact ⟨nofun, fun _ => htaken rests⟩
    | failed rests => exact ⟨nofun, fun _ => htaken rests⟩
  | disassemble source =>
    have hdone := rests_disassemble source hm
    rw [Machine.respond]
    generalize m.disassemble source = done at hdone
    obtain ⟨listing, m₁⟩ := done
    rcases hdone with ⟨hrests, hwhole⟩ | rfl
    · cases listing with
      | fault f => exact absurd rfl (hwhole f)
      | _ => exact ⟨nofun, fun _ => hrests⟩
    · exact ⟨fun f hf => (Option.some.inj hf).symm, nofun⟩
  | collect =>
    obtain ⟨W, hm⟩ := hm
    exact ⟨nofun, fun _ => hm.collect⟩

end Machine

end ScriptMachine
