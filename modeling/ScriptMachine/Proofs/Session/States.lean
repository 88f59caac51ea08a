import ScriptMachine.Machine.Session
import ScriptMachine.Proofs.Machine.Outline

/-!
# The states of a session

A session starts with a machine and feeds it with sources, one after the other. A source that is
loaded runs in slices of any number of instructions until it ends; between two sources a listing
may be asked for and garbage collected. A fault ends the session, so no state comes after one.
-/

namespace ScriptMachine

/-- Whether a machine is between two sources or in the midst of one. -/
inductive Phase
  | resting
  | running
deriving DecidableEq

/-- The phase that an outcome leaves a machine in; a fault leaves none. -/
def Outcome.phase? : Outcome → Option Phase
  | ok | refused _ | failed _ => some .resting
  | unfinished => some .running
  | fault _ => none

/-- The source ran to its end. -/
def Outcome.isOk : Outcome → Bool
  | ok => true
  | _ => false

/-- The errors that a source was refused with. -/
def Outcome.errors? : Outcome → Option (List CompileError)
  | refused es => some es
  | _ => none

namespace Machine

/-- The machines of the sessions with some settings. -/
inductive Reached (settings : Settings) (journal : Journal) (sink : Sink) : Phase → Machine → Prop
  | created {m : Machine} (done : create settings journal sink = .ok m) :
      Reached settings journal sink .resting m
  | loaded {m m' : Machine} {source : String} {outcome : Outcome} {p : Phase}
      (before : Reached settings journal sink .resting m) (done : m.load source = (outcome, m'))
      (phase : outcome.phase? = some p) : Reached settings journal sink p m'
  | resumed {m m' : Machine} {fuel : Nat} {outcome : Outcome} {p : Phase}
      (before : Reached settings journal sink .running m) (done : m.resume fuel = (outcome, m'))
      (phase : outcome.phase? = some p) : Reached settings journal sink p m'
  | disassembled {m m' : Machine} {source : String} {listed : Disassembly}
      (before : Reached settings journal sink .resting m)
      (done : m.disassemble source = (listed, m')) (whole : ∀ f, listed ≠ .fault f) :
      Reached settings journal sink .resting m'
  | collected {m : Machine} (before : Reached settings journal sink .resting m) :
      Reached settings journal sink .resting m.collectGarbage
  | tookOutput {p : Phase} {m : Machine} (before : Reached settings journal sink p m) :
      Reached settings journal sink p m.takeOutput.2
  | tookEvents {p : Phase} {m : Machine} (before : Reached settings journal sink p m) :
      Reached settings journal sink p m.takeEvents.2
  | ticked {p : Phase} {m : Machine} (before : Reached settings journal sink p m) (now : Float) :
      Reached settings journal sink p { m with clock := now }

/-! ### From one machine of a session to the next -/

/-- What may be done with a machine between two steps, which changes nothing that they read. -/
inductive Idles (m : Machine) : Machine → Prop
  | ticked (now : Float) : Idles m { m with clock := now }
  | tookOutput : Idles m m.takeOutput.2
  | tookEvents : Idles m m.takeEvents.2

/-- What may come next of a machine in a session. Runs are taken one step at a time. -/
inductive Goes : Phase → Machine → Phase → Machine → Prop
  | stepped {m m' : Machine} {outcome : Outcome} {p : Phase} (done : m.resume 1 = (outcome, m'))
      (phase : outcome.phase? = some p) : Goes .running m p m'
  | loaded {m m' : Machine} {source : String} {outcome : Outcome} {p : Phase}
      (done : m.load source = (outcome, m')) (phase : outcome.phase? = some p) :
      Goes .resting m p m'
  | disassembled {m m' : Machine} {source : String} {listed : Disassembly}
      (done : m.disassemble source = (listed, m')) (whole : ∀ f, listed ≠ .fault f) :
      Goes .resting m .resting m'
  | collected {m : Machine} : Goes .resting m .resting m.collectGarbage
  | idled {p : Phase} {m m' : Machine} (idles : m.Idles m') : Goes p m p m'

/-- A session goes on from one machine to another, and up to the last one all keep `x` alive. -/
inductive Lives (x : Handle) : Phase → Machine → Phase → Machine → Prop
  | refl {p : Phase} {m : Machine} : Lives x p m p m
  | tail {p p' p'' : Phase} {m n m' : Machine} (before : Lives x p m p' n) (keeps : n.Keeps x)
      (next : Goes p' n p'' m') : Lives x p m p'' m'

/-- The machines of the sessions with some settings, with the sources that the session has compiled,
the latest first. -/
inductive Fed (settings : Settings) (journal : Journal) (sink : Sink) :
    List String → Phase → Machine → Prop
  | created {m : Machine} (done : create settings journal sink = .ok m) :
      Fed settings journal sink [] .resting m
  | loaded {m m' : Machine} {source : String} {sources : List String} {outcome : Outcome} {p : Phase}
      (before : Fed settings journal sink sources .resting m) (done : m.load source = (outcome, m'))
      (phase : outcome.phase? = some p) : Fed settings journal sink (source :: sources) p m'
  | resumed {m m' : Machine} {fuel : Nat} {sources : List String} {outcome : Outcome} {p : Phase}
      (before : Fed settings journal sink sources .running m) (done : m.resume fuel = (outcome, m'))
      (phase : outcome.phase? = some p) : Fed settings journal sink sources p m'
  | disassembled {m m' : Machine} {source : String} {sources : List String} {listed : Disassembly}
      (before : Fed settings journal sink sources .resting m)
      (done : m.disassemble source = (listed, m')) (whole : ∀ f, listed ≠ .fault f) :
      Fed settings journal sink (source :: sources) .resting m'
  | collected {m : Machine} {sources : List String}
      (before : Fed settings journal sink sources .resting m) :
      Fed settings journal sink sources .resting m.collectGarbage
  | idled {m m' : Machine} {sources : List String} {p : Phase}
      (before : Fed settings journal sink sources p m) (idles : m.Idles m') :
      Fed settings journal sink sources p m'

section Reaching

variable {settings : Settings} {journal : Journal} {sink : Sink} {m m' : Machine} {p p' : Phase}

/-- Nothing that may be done between two steps leaves the session. -/
theorem Idles.reached (h : m.Idles m') (hm : Reached settings journal sink p m) :
    Reached settings journal sink p m' := by
  cases h with
  | ticked now => exact hm.ticked now
  | tookOutput => exact hm.tookOutput
  | tookEvents => exact hm.tookEvents

/-- Whatever comes next is a machine of the session. -/
theorem Goes.reached (h : Goes p m p' m') (hm : Reached settings journal sink p m) :
    Reached settings journal sink p' m' := by
  cases h with
  | stepped done phase => exact hm.resumed done phase
  | loaded done phase => exact hm.loaded done phase
  | disassembled done whole => exact hm.disassembled done whole
  | collected => exact hm.collected
  | idled idles => exact idles.reached hm

/-- A session that goes on stays one. -/
theorem Lives.reached {x : Handle} (h : Lives x p m p' m') (hm : Reached settings journal sink p m) :
    Reached settings journal sink p' m' := by
  induction h with
  | refl => exact hm
  | tail _ _ next ih => exact next.reached (ih hm)

/-- A machine that some sources lead to is one of a session. -/
theorem Fed.reached {sources : List String} (h : Fed settings journal sink sources p m) :
    Reached settings journal sink p m := by
  induction h with
  | created done => exact .created done
  | loaded _ done phase ih => exact ih.loaded done phase
  | resumed _ done phase ih => exact ih.resumed done phase
  | disassembled _ done whole ih => exact ih.disassembled done whole
  | collected _ ih => exact ih.collected
  | idled _ idles ih => exact idles.reached ih

/-- Every machine of a session is one that some sources lead to. -/
theorem Reached.fed (h : Reached settings journal sink p m) :
    ∃ sources, Fed settings journal sink sources p m := by
  induction h with
  | created done => exact ⟨[], .created done⟩
  | loaded _ done phase ih =>
    obtain ⟨sources, h⟩ := ih
    exact ⟨_, h.loaded done phase⟩
  | resumed _ done phase ih =>
    obtain ⟨sources, h⟩ := ih
    exact ⟨sources, h.resumed done phase⟩
  | disassembled _ done whole ih =>
    obtain ⟨sources, h⟩ := ih
    exact ⟨_, h.disassembled done whole⟩
  | collected _ ih =>
    obtain ⟨sources, h⟩ := ih
    exact ⟨sources, h.collected⟩
  | tookOutput _ ih =>
    obtain ⟨sources, h⟩ := ih
    exact ⟨sources, h.idled .tookOutput⟩
  | tookEvents _ ih =>
    obtain ⟨sources, h⟩ := ih
    exact ⟨sources, h.idled .tookEvents⟩
  | ticked _ now ih =>
    obtain ⟨sources, h⟩ := ih
    exact ⟨sources, h.idled (.ticked now)⟩

end Reaching

/-- A property that is found of the machine with the standard settings is one of a machine that is
made. -/
theorem exists_created {g : Machine → Bool}
    (h : (create Settings.standard Journal.off Sink.unlimited).toOption.any g = true) :
    ∃ m, create Settings.standard Journal.off Sink.unlimited = .ok m ∧ g m = true := by
  cases hm : create Settings.standard Journal.off Sink.unlimited with
  | ok m =>
    rw [hm] at h
    exact ⟨m, rfl, h⟩
  | error f =>
    rw [hm] at h
    cases h

end Machine

end ScriptMachine
