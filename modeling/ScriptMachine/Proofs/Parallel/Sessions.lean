import ScriptMachine.Proofs.Parallel.Creation
import ScriptMachine.Proofs.Parallel.Sources

/-!
# Corresponding sessions

Corresponding machines answer a command alike. A collection, a listing or a refused source on one
side alone changes nothing that the other side has not: only heaps change, and they keep what the
machines keep alive.

So what a session is answered depends neither on when garbage is collected, nor on the commands that
run no code: a session with other collections, or without those commands, is answered alike. Only
an exhausted arena cuts a session short.
-/

namespace ScriptMachine

namespace Machine

variable {m m' : Machine}

/-! ### Sources that are refused -/

/-- What an error of a script comes to is no refusal. -/
theorem settle_ne_refused (halt : Halt) (es : List CompileError) :
    (m.settle halt).1 ≠ .refused es := by
  unfold settle
  split
  · nofun
  · split <;> nofun

/-- Going on refuses no source. -/
theorem resume_ne_refused (fuel : Nat) (es : List CompileError) :
    (m.resume fuel).1 ≠ .refused es := by
  unfold resume
  split
  · nofun
  · nofun
  · exact settle_ne_refused _ es

/-- Running slices refuses no source. -/
theorem runSlices_ne_refused (slices : List (Float × Nat)) (es : List CompileError) :
    (m.runSlices slices).1 ≠ .refused es := by
  induction slices generalizing m with
  | nil => nofun
  | cons slice rest ih =>
    obtain ⟨now, fuel⟩ := slice
    rw [runSlices]
    have hresume := resume_ne_refused (m := { m with clock := now }) fuel es
    split
    · exact ih
    · exact hresume

/-- Only a source that does not compile is refused, and then nothing was run. -/
theorem compile_of_refused {source : String} {slices : List (Float × Nat)} {es : List CompileError}
    (hdone : m.interpretSlices source slices = (.refused es, m')) :
    m.compile source = (.errors es, m') := by
  rw [interpretSlices] at hdone
  generalize hload : m.load source = loaded at hdone
  obtain ⟨o, m₁⟩ := loaded
  have hloaded : m.load source = (.refused es, m') := by
    cases o with
    | unfinished => exact absurd (congrArg Prod.fst hdone) (runSlices_ne_refused slices es)
    | _ => exact hload.trans hdone
  rw [load] at hloaded
  split at hloaded
  · next hcompiled =>
    obtain ⟨hes, rfl⟩ := Prod.mk.inj hloaded
    rw [hcompiled, Outcome.refused.inj hes]
  · cases (Prod.mk.inj hloaded).1
  · split at hloaded
    · cases (Prod.mk.inj hloaded).1
    · exact absurd (congrArg Prod.fst hloaded) (settle_ne_refused _ es)

/-- Where a machine at rest refuses a source, its heap alone has changed, and not what is kept
alive there. -/
theorem Rests.refused {source : String} {slices : List (Float × Nat)} {es : List CompileError}
    (hm : m.Rests) (hdone : m.interpretSlices source slices = (.refused es, m')) :
    m' = { m with heap := m'.heap } ∧ ∀ x, m.Keeps x → m'.heap.object? x = m.heap.object? x := by
  obtain ⟨W, hshows⟩ := hm
  have hcompiled := compile_of_refused hdone
  have hspec := Compile.compile_spec source hshows.sound (hshows.covers hshows.lists)
  rw [compile_eq] at hcompiled
  obtain ⟨hresult, rfl⟩ := Prod.mk.inj hcompiled
  generalize Compile.compile source m.heap m.roots = made at hspec hresult
  obtain ⟨result, h⟩ := made
  cases hresult
  exact ⟨rfl, hspec.kept⟩

/-- Listing a source changes what compiling it changes. -/
theorem disassemble_machine (m : Machine) (source : String) :
    (m.disassemble source).2 = (m.compile source).2 := by
  rw [disassemble]
  generalize m.compile source = made
  obtain ⟨result, m⟩ := made
  cases result with
  | function r =>
    dsimp only
    split <;> rfl
  | _ => rfl

/-- After a command no printed text is left, if none was left before. -/
theorem text_respond (hm : m.sink.text = "") (c : Command) :
    (m.respond c).2.sink.text = "" := by
  cases c with
  | interpret source slices => rfl
  | disassemble source =>
    show (m.disassemble source).2.sink.text = ""
    rw [disassemble_machine]
    exact hm
  | collect => exact hm

end Machine

namespace Pairing

/-! ### One side alone -/

variable {p : Pairing} {m n : Machine} {h : Heap}

/-- One heap alone may change, as long as it keeps what its machine keeps alive. -/
theorem Machines.carry_left (hm : p.Machines m n) (hs : h.Sound)
    (hkept : ∀ x, m.Keeps x → h.object? x = m.heap.object? x) :
    ∃ q : Pairing, q.terms = p.terms ∧ q.Machines { m with heap := h } n := by
  obtain ⟨q, hq, hpairs⟩ : ∃ q : Pairing, q.Heaps h n.heap ∧ p.Kept q m.heap n.heap m.roots n.roots :=
    hm.heaps.carry hs hm.heaps.right hkept fun _ _ => rfl
  exact ⟨q, hpairs.terms, hm.carry hq hpairs.terms hpairs.pairs hkept fun _ _ => rfl⟩

/-- One machine alone may collect garbage. -/
theorem Machines.collect_left (hm : p.Machines m n) :
    ∃ q : Pairing, q.terms = p.terms ∧ q.Machines m.collectGarbage n :=
  hm.carry_left (hm.heaps.left.collect hm.covers) fun _ =>
    Heap.object?_collect hm.heaps.left.unmarked

/-- One machine alone may compile. -/
theorem Machines.compile_left (hm : p.Machines m n) (source : String)
    (hwhole : ∀ f, (m.compile source).1 ≠ .fault f) :
    ∃ q : Pairing, q.terms = p.terms ∧ q.Machines (m.compile source).2 n := by
  have hspec := Compile.compile_spec source hm.heaps.left hm.covers
  rw [Machine.compile_eq] at hwhole ⊢
  generalize Compile.compile source m.heap m.roots = made at hspec hwhole
  obtain ⟨result, h⟩ := made
  cases result with
  | function r => exact hm.carry_left hspec.1.sound hspec.1.kept
  | errors es => exact hm.carry_left hspec.sound hspec.kept
  | fault f => exact absurd rfl (hwhole f)

/-! ### Replies -/

/-- The same reply of both machines, which correspond, or a fault on either side. -/
inductive SameReply : Reply × Machine → Reply × Machine → Prop
  | same {q : Pairing} {r : Reply} {m n : Machine} (terms : q.terms.Exact)
    (machines : q.Machines m n) : SameReply (r, m) (r, n)
  | faultLeft {f : Fault} {r : Reply} {m : Machine} {done : Reply × Machine}
    (fault : r.fault? = some f) : SameReply (r, m) done
  | faultRight {f : Fault} {r : Reply} {n : Machine} {done : Reply × Machine}
    (fault : r.fault? = some f) : SameReply done (r, n)

/-- Taking the output leaves corresponding machines. -/
theorem Machines.takeOutput (hm : p.Machines m n) : p.Machines m.takeOutput.2 n.takeOutput.2 :=
  { hm with sink := congrArg (fun s : Sink => { s with text := "" }) hm.sink }

/-- The same source is listed alike. -/
theorem Machines.disassemble (hp : p.terms.Exact) (hm : p.Machines m n) (source : String) :
    SameReply (m.respond (.disassemble source)) (n.respond (.disassemble source)) := by
  have hcompiled := hm.compile hp source
  rw [Machine.respond, Machine.respond, Machine.disassemble, Machine.disassemble]
  generalize m.compile source = made at hcompiled
  generalize n.compile source = made' at hcompiled
  cases hcompiled with
  | @function q r r' m n terms machines scripts =>
    have hlisted := machines.heaps.listFunctions (terms ▸ hp.lines) UInt32.size
      (.cons scripts .nil) ""
    dsimp only
    generalize Machine.listFunctions m.heap UInt32.size [r] "" = found at hlisted
    generalize Machine.listFunctions n.heap UInt32.size [r'] "" = found' at hlisted
    cases found with
    | error f => exact .faultLeft rfl
    | ok text =>
      cases found' with
      | error f => exact .faultRight rfl
      | ok text' =>
        obtain rfl : text = text' := hlisted text text' rfl rfl
        exact .same (terms ▸ hp) machines
  | errors terms machines => exact .same (terms ▸ hp) machines
  | faultLeft => exact .faultLeft rfl
  | faultRight => exact .faultRight rfl

/-- Corresponding machines answer a command alike. -/
theorem Machines.respond (hp : p.terms.Exact) (hm : p.Machines m n) (c : Command) :
    SameReply (m.respond c) (n.respond c) := by
  cases c with
  | interpret source slices =>
    have hdone := hm.interpretSlices hp source slices
    rw [Machine.respond, Machine.respond]
    generalize m.interpretSlices source slices = done at hdone
    generalize n.interpretSlices source slices = done' at hdone
    cases hdone with
    | @same q o m n terms machines =>
      have hprinted : m.takeOutput.1 = n.takeOutput.1 := congrArg Sink.text machines.sink
      dsimp only
      rw [hprinted]
      exact .same (terms ▸ hp) machines.takeOutput
    | faultLeft => exact .faultLeft rfl
    | faultRight => exact .faultRight rfl
  | disassemble source => exact hm.disassemble hp source
  | collect =>
    obtain ⟨q, hq, hleft⟩ := hm.collect_left
    obtain ⟨s, hs, hboth⟩ := hleft.symm.collect_left
    have hterms : s.terms.Exact := by
      rw [hs]
      exact (hq ▸ hp : q.terms.Exact).symm
    exact .same (q := s.symm) hterms.symm hboth.symm

/-- One machine alone may answer a command that runs no code, unless it meets a fault. -/
theorem Machines.respond_left (hm : p.Machines m n) (htext : m.sink.text = "") {c : Command}
    (hcode : (m.respond c).1.ranCode = false) (hlast : (m.respond c).1.isLast = false) :
    ∃ q : Pairing, q.terms = p.terms ∧ q.Machines (m.respond c).2 n := by
  cases c with
  | interpret source slices =>
    rw [Machine.respond] at hcode ⊢
    generalize hdone : m.interpretSlices source slices = done at hcode
    obtain ⟨o, m'⟩ := done
    cases o with
    | refused es =>
      have hcompiled := Machine.compile_of_refused hdone
      have hleft := hm.compile_left source (by simp [hcompiled])
      have hsink : m'.sink = m.sink := congrArg (Machine.sink ∘ Prod.snd) hcompiled.symm
      -- there is no text to take
      have htaken : m'.takeOutput.2 = m' := by
        show { m' with sink := { m'.sink with text := "" } } = m'
        rw [hsink, ← htext, ← hsink]
      rw [hcompiled] at hleft
      exact htaken.symm ▸ hleft
    | _ => cases hcode
  | disassemble source =>
    rw [Machine.respond] at hlast ⊢
    dsimp only at hlast ⊢
    rw [Machine.disassemble_machine]
    refine hm.compile_left source fun f hf => ?_
    have hfault : (m.disassemble source).1 = .fault f := by
      rw [Machine.disassemble]
      generalize m.compile source = made at hf
      obtain ⟨result, m'⟩ := made
      obtain rfl : result = .fault f := hf
      rfl
    rw [hfault] at hlast
    cases hlast
  | collect => exact hm.collect_left

end Pairing

/-! ### Sessions -/

/-- Two sessions are answered alike: reply by reply the same, as far as neither arena is
exhausted. -/
inductive SameReplies : List Reply → List Reply → Prop
  | nil : SameReplies [] []
  | cons {r : Reply} {rs rs' : List Reply} (rest : SameReplies rs rs') :
    SameReplies (r :: rs) (r :: rs')
  | fullLeft {r : Reply} {rs : List Reply} (full : r.fault? = some .arenaFull) :
    SameReplies [r] rs
  | fullRight {r : Reply} {rs : List Reply} (full : r.fault? = some .arenaFull) :
    SameReplies rs [r]

/-- Where neither arena is exhausted, all replies are the same. -/
theorem SameReplies.eq {rs rs' : List Reply} (h : SameReplies rs rs')
    (hrs : ∀ r ∈ rs, r.fault? ≠ some .arenaFull) (hrs' : ∀ r ∈ rs', r.fault? ≠ some .arenaFull) :
    rs = rs' := by
  induction h with
  | nil => rfl
  | cons _ ih =>
    rw [ih (fun r hr => hrs r (List.mem_cons_of_mem _ hr)) fun r hr =>
      hrs' r (List.mem_cons_of_mem _ hr)]
  | fullLeft full => exact absurd full (hrs _ List.mem_cons_self)
  | fullRight full => exact absurd full (hrs' _ List.mem_cons_self)

/-- A fault ends a session. -/
theorem Reply.isLast_of_fault? {r : Reply} {f : Fault} (hf : r.fault? = some f) : r.isLast = true := by
  unfold fault? at hf
  split at hf
  · rfl
  · rfl
  · cases hf

namespace Machine

/-- The commands of a session whose code is run. -/
def running (m : Machine) (cs : List Command) : List Command :=
  ((cs.zip (m.session cs)).filter fun step => step.2.ranCode).map Prod.fst

/-- The last command ends the session. -/
theorem session_last {m : Machine} {c : Command} (rest : List Command)
    (hlast : (m.respond c).1.isLast = true) : m.session (c :: rest) = [(m.respond c).1] := by
  rw [session]
  exact if_pos hlast

/-- Any other command is followed by the rest of the session. -/
theorem session_next {m : Machine} {c : Command} (rest : List Command)
    (hlast : (m.respond c).1.isLast = false) :
    m.session (c :: rest) = (m.respond c).1 :: (m.respond c).2.session rest := by
  rw [session]
  exact if_neg fun h => Bool.false_ne_true (hlast.symm.trans h)

/-- A command whose code is not run is left out. -/
theorem running_skip {m : Machine} {c : Command} (rest : List Command)
    (hcode : (m.respond c).1.ranCode = false) : m.running (c :: rest) =
      if (m.respond c).1.isLast then [] else (m.respond c).2.running rest := by
  cases hlast : (m.respond c).1.isLast with
  | true =>
    rw [running, session_last rest hlast, List.zip_cons_cons, List.zip_nil_right]
    simp only [List.filter_cons, hcode]
    rfl
  | false =>
    rw [running, session_next rest hlast, List.zip_cons_cons]
    simp only [List.filter_cons, hcode]
    rfl

/-- A command whose code is run comes first. -/
theorem running_code {m : Machine} {c : Command} (rest : List Command)
    (hcode : (m.respond c).1.ranCode = true) : m.running (c :: rest) =
      c :: if (m.respond c).1.isLast then [] else (m.respond c).2.running rest := by
  cases hlast : (m.respond c).1.isLast with
  | true =>
    rw [running, session_last rest hlast, List.zip_cons_cons, List.zip_nil_right]
    simp only [List.filter_cons, hcode]
    rfl
  | false =>
    rw [running, session_next rest hlast, List.zip_cons_cons]
    simp only [List.filter_cons, hcode]
    rfl

end Machine

namespace Pairing

variable {p : Pairing} {m n : Machine}

/-- Machines that rest answer a command alike, or one of them exhausts its arena. -/
theorem Machines.respond_cases (hp : p.terms.Exact) (hm : p.Machines m n) (hr : m.Rests)
    (hr' : n.Rests) (c : Command) :
    ((m.respond c).1 = (n.respond c).1 ∧ ∃ q : Pairing, q.terms.Exact ∧
      q.Machines (m.respond c).2 (n.respond c).2) ∨
    (m.respond c).1.fault? = some .arenaFull ∨ (n.respond c).1.fault? = some .arenaFull := by
  have hsame := hm.respond hp c
  have hfull := (hr.respond c).1
  have hfull' := (hr'.respond c).1
  generalize m.respond c = done at hsame hfull
  generalize n.respond c = done' at hsame hfull'
  cases hsame with
  | same terms machines => exact .inl ⟨rfl, _, terms, machines⟩
  | faultLeft fault => exact .inr (.inl (hfull _ fault ▸ fault))
  | faultRight fault => exact .inr (.inr (hfull' _ fault ▸ fault))

/-- A collection is not the last command. -/
theorem Machines.skip_collect (hp : p.terms.Exact) (hm : p.Machines m n) (hr : m.Rests) {c : Command}
    (hc : c.isSeen = false) (rest : List Command) :
    (∃ q : Pairing, q.terms.Exact ∧ q.Machines (m.respond c).2 n) ∧
      (m.respond c).2.Rests ∧
      (m.session (c :: rest)).filter Reply.isSeen =
        ((m.respond c).2.session rest).filter Reply.isSeen := by
  cases c with
  | collect =>
    obtain ⟨q, hq, hleft⟩ := hm.collect_left
    refine ⟨⟨q, hq ▸ hp, hleft⟩, (hr.respond .collect).2 rfl, ?_⟩
    rw [Machine.session_next (c := .collect) rest rfl]
    exact List.filter_cons_of_neg nofun
  | _ => cases hc

/-- Whether a reply is seen depends on the command. -/
theorem isSeen_respond (m : Machine) (c : Command) : (m.respond c).1.isSeen = c.isSeen := by
  cases c <;> rfl

/-- Sessions with the same commands but for collections are answered alike. -/
theorem Machines.session_seen (hp : p.terms.Exact) (hm : p.Machines m n) (hr : m.Rests)
    (hr' : n.Rests) {cs cs' : List Command}
    (hcs : cs.filter Command.isSeen = cs'.filter Command.isSeen) :
    SameReplies ((m.session cs).filter Reply.isSeen) ((n.session cs').filter Reply.isSeen) := by
  induction cs generalizing p m n cs' with
  | nil =>
    induction cs' generalizing n p with
    | nil => exact .nil
    | cons c cs' ih =>
      cases hc : c.isSeen with
      | true =>
        rw [List.filter_cons_of_pos hc] at hcs
        cases hcs
      | false =>
        rw [List.filter_cons_of_neg (by simp [hc])] at hcs
        obtain ⟨⟨q, hq, hnext⟩, hrest, heq⟩ := hm.symm.skip_collect hp.symm hr' hc cs'
        rw [heq]
        exact ih (p := q.symm) hq.symm hnext.symm hrest hcs
  | cons c cs ih =>
    cases hc : c.isSeen with
    | false =>
      rw [List.filter_cons_of_neg (by simp [hc])] at hcs
      obtain ⟨⟨q, hq, hnext⟩, hrest, heq⟩ := hm.skip_collect hp hr hc cs
      rw [heq]
      exact ih hq hnext hrest hr' hcs
    | true =>
      rw [List.filter_cons_of_pos hc] at hcs
      -- the other session collects before it comes to this command
      induction cs' generalizing n p with
      | nil => cases hcs
      | cons c' cs' ih' =>
        cases hc' : c'.isSeen with
        | false =>
          rw [List.filter_cons_of_neg (by simp [hc'])] at hcs
          obtain ⟨⟨q, hq, hnext⟩, hrest, heq⟩ := hm.symm.skip_collect hp.symm hr' hc' cs'
          rw [heq]
          exact ih' (p := q.symm) hq.symm hnext.symm hrest hcs
        | true =>
          rw [List.filter_cons_of_pos hc'] at hcs
          obtain ⟨rfl, htail⟩ := List.cons.inj hcs
          have hseen : (m.respond c).1.isSeen = true := (isSeen_respond m c).trans hc
          have hseen' : (n.respond c).1.isSeen = true := (isSeen_respond n c).trans hc
          rcases hm.respond_cases hp hr hr' c with ⟨hsame, q, hq, hnext⟩ | hfull | hfull
          · cases hlast : (m.respond c).1.isLast with
            | true =>
              rw [Machine.session_last cs hlast, Machine.session_last cs' (hsame ▸ hlast), hsame,
                List.filter_cons_of_pos hseen']
              exact .cons .nil
            | false =>
              rw [Machine.session_next cs hlast, Machine.session_next cs' (hsame ▸ hlast), hsame,
                List.filter_cons_of_pos hseen', List.filter_cons_of_pos hseen']
              exact .cons (ih hq hnext ((hr.respond c).2 hlast) ((hr'.respond c).2 (hsame ▸ hlast))
                htail)
          · rw [Machine.session_last cs (Reply.isLast_of_fault? hfull),
              List.filter_cons_of_pos hseen]
            exact .fullLeft hfull
          · rw [Machine.session_last cs' (Reply.isLast_of_fault? hfull),
              List.filter_cons_of_pos hseen']
            exact .fullRight hfull

/-- A session of the commands whose code another one runs is answered as that one is. -/
theorem Machines.session_running (hp : p.terms.Exact) (hm : p.Machines m n) (hr : m.Rests)
    (hr' : n.Rests) (htext : m.sink.text = "") (cs : List Command) :
    SameReplies ((m.session cs).filter Reply.ranCode) (n.session (m.running cs)) := by
  induction cs generalizing p m n with
  | nil => exact .nil
  | cons c cs ih =>
    have hnext := (hr.respond c).2
    have htext' := Machine.text_respond htext c
    cases hcode : (m.respond c).1.ranCode with
    | false =>
      rw [Machine.running_skip cs hcode]
      cases hlast : (m.respond c).1.isLast with
      | true =>
        rw [Machine.session_last cs hlast, List.filter_cons_of_neg (by simp [hcode])]
        exact .nil
      | false =>
        obtain ⟨q, hq, hleft⟩ := hm.respond_left htext hcode hlast
        rw [Machine.session_next cs hlast, List.filter_cons_of_neg (by simp [hcode])]
        exact ih (hq ▸ hp) hleft (hnext hlast) hr' htext'
    | true =>
      rw [Machine.running_code cs hcode]
      rcases hm.respond_cases hp hr hr' c with ⟨hsame, q, hq, hboth⟩ | hfull | hfull
      · cases hlast : (m.respond c).1.isLast with
        | true =>
          rw [Machine.session_last cs hlast, List.filter_cons_of_pos hcode,
            Machine.session_last _ (hsame ▸ hlast), hsame]
          exact .cons .nil
        | false =>
          rw [Machine.session_next cs hlast, List.filter_cons_of_pos hcode,
            Machine.session_next _ (hsame ▸ hlast), hsame]
          exact .cons (ih hq hboth (hnext hlast) ((hr'.respond c).2 (hsame ▸ hlast)) htext')
      · rw [Machine.session_last cs (Reply.isLast_of_fault? hfull), List.filter_cons_of_pos hcode]
        exact .fullLeft hfull
      · rw [Machine.session_last _ (Reply.isLast_of_fault? hfull)]
        exact .fullRight hfull

end Pairing

namespace Machine

variable {settings settings' : Settings} {journal journal' : Journal} {sink : Sink} {m n : Machine}

/-- A machine that is created is at rest. -/
theorem rests_created (hm : create settings journal sink = .ok m) : m.Rests := by
  rcases create_spec settings journal sink with ⟨m', hm', hrests⟩ | hfull
  · obtain rfl := Except.ok.inj (hm'.symm.trans hm)
    exact hrests
  · cases hfull.symm.trans hm

/-- Every machine of a session corresponds to itself. -/
theorem Reached.exists_self {ph : Phase} (hm : Reached settings journal sink ph m) :
    ∃ q : Pairing, q.terms.Exact ∧ q.Machines m m := by
  induction hm with
  | created done => exact Pairing.exists_created rfl done done
  | @loaded m m' source outcome _ _ done phase ih =>
    obtain ⟨q, hq, hself⟩ := ih
    have hload := hself.load hq source
    rw [done] at hload
    cases hload with
    | same terms machines => exact ⟨_, terms ▸ hq, machines⟩
    | faultLeft | faultRight => cases phase
  | @resumed m m' fuel outcome _ _ done phase ih =>
    obtain ⟨q, hq, hself⟩ := ih
    have hresume := hself.resume hq fuel
    rw [done] at hresume
    cases hresume with
    | same terms machines => exact ⟨_, terms ▸ hq, machines⟩
    | faultLeft | faultRight => cases phase
  | @disassembled m m' source listed _ done whole ih =>
    obtain ⟨q, hq, hself⟩ := ih
    have hlisted := hself.disassemble hq source
    rw [respond, done] at hlisted
    have hnone (f : Fault) : (Reply.listed listed).fault? ≠ some f := by
      intro hfault
      cases listed with
      | fault f' => exact whole f' rfl
      | _ => cases hfault
    cases hlisted with
    | same terms machines => exact ⟨_, terms, machines⟩
    | faultLeft fault => exact absurd fault (hnone _)
    | faultRight fault => exact absurd fault (hnone _)
  | @collected m _ ih =>
    obtain ⟨q, hq, hself⟩ := ih
    have hcollected := hself.respond hq .collect
    cases hcollected with
    | same terms machines => exact ⟨_, terms, machines⟩
    | faultLeft fault => cases fault
    | faultRight fault => cases fault
  | tookOutput _ ih =>
    obtain ⟨q, hq, hself⟩ := ih
    exact ⟨q, hq, hself.takeOutput⟩
  | @tookEvents _ m _ ih =>
    obtain ⟨q, hq, hself⟩ := ih
    have halike : m.heap.Alike m.takeEvents.2.heap := ⟨rfl, rfl, rfl, rfl, rfl⟩
    exact ⟨q, hq, hself.alike halike halike⟩
  | ticked _ now ih =>
    obtain ⟨q, hq, hself⟩ := ih
    exact ⟨q, hq, { hself with clock := rfl }⟩

/-- Garbage collection is not seen: machines with the same number of frames and the same sink
answer the same commands alike, whatever their pacings are and wherever collections are put between
the commands. -/
theorem collections_unseen {cs cs' : List Command}
    (hframes : settings.framesMax = settings'.framesMax)
    (hm : create settings journal sink = .ok m) (hn : create settings' journal' sink = .ok n)
    (hcs : cs.filter Command.isSeen = cs'.filter Command.isSeen) :
    SameReplies ((m.session cs).filter Reply.isSeen) ((n.session cs').filter Reply.isSeen) := by
  obtain ⟨q, hlines, hboth⟩ := Pairing.exists_created hframes hm hn
  exact hboth.session_seen hlines (rests_created hm) (rests_created hn) hcs

/-- The standard settings, with a collection at every allocation. -/
def stressed : Settings := ⟨64, { Pacing.standard with stress := true }⟩

/-- A listing and a source are answered alike by a machine that collects at every allocation. -/
theorem stressed_session_alike : ∃ m n,
    create Settings.standard Journal.off Sink.unlimited = .ok m ∧
    create stressed Journal.off Sink.unlimited = .ok n ∧
    SameReplies
      ((m.session [.disassemble "print null;", .interpret "print true;" [(0, 9)]]).filter
        Reply.isSeen)
      ((n.session [.collect, .disassemble "print null;", .collect,
        .interpret "print true;" [(0, 9)]]).filter Reply.isSeen) := by
  have hmade : (create Settings.standard Journal.off Sink.unlimited).toOption.isSome = true := by
    decide +kernel
  have hmade' : (create stressed Journal.off Sink.unlimited).toOption.isSome = true := by
    decide +kernel
  have hframes : Settings.standard.framesMax = stressed.framesMax := rfl
  have hsame : [Command.disassemble "print null;", .interpret "print true;" [(0, 9)]].filter
      Command.isSeen = [.collect, .disassemble "print null;", .collect,
        .interpret "print true;" [(0, 9)]].filter Command.isSeen := rfl
  cases hm : create Settings.standard Journal.off Sink.unlimited with
  | error f =>
    rw [hm] at hmade
    cases hmade
  | ok m =>
    cases hn : create stressed Journal.off Sink.unlimited with
    | error f =>
      rw [hn] at hmade'
      cases hmade'
    | ok n => exact ⟨m, n, rfl, rfl, collections_unseen hframes hm hn hsame⟩

/-- Commands that run no code are not seen: without its listings, its collections and the sources it
refuses, a session is answered alike. A source that is refused prints nothing and leaves the
globals, the stack, the frames and the open upvalues as they were, and all that is kept alive. -/
theorem commands_without_code_unseen (htext : sink.text = "")
    (hm : create settings journal sink = .ok m) :
    (∀ cs, SameReplies ((m.session cs).filter Reply.ranCode) (m.session (m.running cs))) ∧
    ∀ m', Reached settings journal sink .resting m' → ∀ source slices es m'',
      m'.interpretSlices source slices = (.refused es, m'') →
      m''.sink = m'.sink ∧ m''.globals = m'.globals ∧ m''.stack = m'.stack ∧
        m''.frames = m'.frames ∧ m''.openUpvalues = m'.openUpvalues ∧
        ∀ x, m'.Keeps x → m''.heap.object? x = m'.heap.object? x := by
  refine ⟨fun cs => ?_, fun m' hreached source slices es m'' hdone => ?_⟩
  · obtain ⟨q, hlines, hboth⟩ := Pairing.exists_created rfl hm hm
    exact hboth.session_running hlines (rests_created hm) (rests_created hm)
      (sink_of_create hm ▸ htext) cs
  · have hrests : m'.Rests := hreached.inPhase
    obtain ⟨hsame, hkept⟩ := hrests.refused hdone
    rw [hsame]
    exact ⟨rfl, rfl, rfl, rfl, rfl, hkept⟩

/-- A source that breaks off is refused by a new machine, and what comes after it is answered as if
it had not been there. -/
theorem refused_source_unseen : ∃ m es m',
    create Settings.standard Journal.off Sink.unlimited = .ok m ∧
    m.interpretSlices "print null" [] = (.refused es, m') ∧ m'.globals = m.globals ∧
    (m.session [.interpret "print null" [], .collect, .interpret "print true;" [(0, 9)]]).map
      Reply.ranCode = [false, false, true] ∧
    SameReplies
      ((m.session [.interpret "print null" [], .collect, .interpret "print true;" [(0, 9)]]).filter
        Reply.ranCode)
      (m.session (m.running
        [.interpret "print null" [], .collect, .interpret "print true;" [(0, 9)]])) := by
  have hmade : ((create Settings.standard Journal.off Sink.unlimited).toOption.map fun m =>
      (m.session [.interpret "print null" [], .collect, .interpret "print true;" [(0, 9)]]).map
        Reply.ranCode) = some [false, false, true] := by
    decide +kernel
  have hrefused : ((create Settings.standard Journal.off Sink.unlimited).toOption.map fun m =>
      (m.interpretSlices "print null" []).1.errors?.isSome) = some true := by
    decide +kernel
  cases hm : create Settings.standard Journal.off Sink.unlimited with
  | error f =>
    rw [hm] at hmade
    cases hmade
  | ok m =>
    rw [hm] at hmade hrefused
    obtain ⟨halike, hleaves⟩ := commands_without_code_unseen rfl hm
    replace hrefused : (m.interpretSlices "print null" []).1.errors?.isSome = true :=
      Option.some.inj hrefused
    generalize hdone : m.interpretSlices "print null" [] = done at hrefused
    obtain ⟨o, m'⟩ := done
    cases o with
    | refused es =>
      obtain ⟨-, hglobals, -⟩ := hleaves m (.created hm) _ _ _ _ hdone
      exact ⟨m, es, m', rfl, hdone, hglobals, Option.some.inj hmade, halike _⟩
    | _ => cases hrefused

end Machine

end ScriptMachine
