import ScriptMachine.Proofs.Code.Sections
import ScriptMachine.Proofs.Session.Comparing
import ScriptMachine.Proofs.Session.Traces

/-!
# Listings and the machine

A source is listed one section a function: the script first, then the functions among its
constants, and so on level by level. The functions of a program are a tree, so the listing ends and
no function is in it twice. What the sections say of the code is what the machine does there: it
goes on where a jump is said to lead, a closure is made with the captures that are listed behind
the instruction, and nothing that is listed as a capture is ever carried out.
-/

namespace ScriptMachine

variable {W : World} {h h' : Heap} {r x : Handle} {f : Prototype} {m m' : Machine} {g : Frame}
  {i : Instr} {o t : Nat} {k : UInt16} {waiting order : List Handle}

/-! ### Sections -/

/-- What a listing has of one function. -/
structure ListedSection where
  function : Prototype
  title : String
  words : List ListedWord

namespace ListedSection

/-- A section as printed: a line with the title, and a line for each word. -/
def text (s : ListedSection) : String :=
  s!"== {s.title} ==\n" ++ s.function.chunk.linesFrom 0 s.words

/-- The section is for the function `r`: it has its name as the title and lists its code. -/
structure Of (h : Heap) (r : Handle) (s : ListedSection) : Prop where
  object : h.object? r = some (.function s.function)
  title : match s.function.name with
    | some n => ∃ name, h.object? n = some (.string name) ∧ s.title = name.chars
    | none => s.title = "<script>"
  listed : s.function.Listed h s.words

end ListedSection

/-- Behind a step that succeeds comes the next one. -/
theorem ok_bind {α β : Type} (a : α) (f : α → Except Fault β) :
    ((.ok a : Except Fault α) >>= f) = f a := rfl

/-- What succeeds for each value succeeds for all of them. -/
theorem filterMapM_eq {α β : Type} {f : α → Except Fault (Option β)} {g : α → Option β}
    {vs : List α} (hf : ∀ v ∈ vs, f v = .ok (g v)) : vs.filterMapM f = .ok (vs.filterMap g) := by
  induction vs with
  | nil => rfl
  | cons v vs ih =>
    obtain ⟨hv, hrest⟩ := List.forall_mem_cons.mp hf
    rw [List.filterMapM_cons, hv]
    cases hg : g v with
    | none =>
      rw [List.filterMap_cons_none hg]
      exact ih hrest
    | some b =>
      rw [List.filterMap_cons_some hg]
      show (vs.filterMapM f >>= fun bs => pure (b :: bs)) = _
      rw [ih hrest]
      rfl

/-- Whether a value refers to a function is found out from its kind. -/
theorem World.Fits.functionOf?_eq (hw : W.Fits h) {v : Value} (hv : W.Holds v .any) :
    (do
      let kind ← h.kind? v
      return if kind = some .function then v.toHandle? else none : Except Fault (Option Handle)) =
      .ok (h.functionOf? v) := by
  unfold Heap.kind? Heap.functionOf?
  cases hat : v.toHandle? with
  | none => rfl
  | some y =>
    obtain ⟨t, ht⟩ := hv y hat
    obtain ⟨o, ho, hobject, -⟩ := hw.object ht
    simp only [ho, hobject, Except.map, Option.filter_some, Option.any_some, decide_eq_true_eq]
    show (.ok (if some o.kind = some .function then some y else none) : Except Fault _) = _
    simp only [Option.some.injEq]

/-- The functions among known constants are known. -/
theorem World.Fits.knows_functionOf? (hw : W.Fits h) {v : Value} (hv : W.Holds v .any)
    (hr : h.functionOf? v = some r) : ∃ captures, W r = some (.function captures) := by
  obtain ⟨hat, hkind⟩ := Option.filter_eq_some_iff.mp hr
  obtain ⟨t, ht⟩ := hv r hat
  obtain ⟨o, ho, hd⟩ := hw r t ht
  rw [ho, Option.any_some, decide_eq_true_eq] at hkind
  cases hd with
  | function => exact ⟨_, ht⟩
  | _ => cases hkind

/-- A known function has a section. -/
theorem World.Fits.exists_section (hw : W.Fits h) {captures : List Content}
    (hr : W r = some (.function captures)) : ∃ s : ListedSection, s.Of h r ∧
      (∀ x ∈ h.inner r, ∃ captures, W x = some (.function captures)) ∧
      ∀ fuel waiting text, Machine.listFunctions h (fuel + 1) (r :: waiting) text =
        Machine.listFunctions h fuel (waiting ++ h.inner r) (text ++ s.text) := by
  obtain ⟨f, hf, hobject, hd⟩ := hw.prototype hr
  cases hd with
  | function name constants code =>
    have hconstants : ∀ v ∈ f.chunk.constants.toList, W.Holds v .any :=
      fun v hv => constants v (Array.mem_toList_iff.mp hv)
    obtain ⟨words, hlisted, hlisting⟩ := (World.wellFormed hw code).exists_listed hw constants
    have hinner : h.inner r = f.chunk.constants.toList.filterMap h.functionOf? := by
      rw [Heap.inner, hobject]
    have hknown : ∀ x ∈ h.inner r, ∃ captures, W x = some (.function captures) := by
      rw [hinner]
      intro x hx
      obtain ⟨v, hv, hat⟩ := List.mem_filterMap.mp hx
      exact hw.knows_functionOf? (hconstants v hv) hat
    have hnested := filterMapM_eq fun v hv => hw.functionOf?_eq (hconstants v hv)
    -- behind the section come the functions that wait
    have hlist (title : String) (fuel : Nat) (waiting : List Handle) (text : String) : (do
        let listing ← f.chunk.listing h title
        let nested ← f.chunk.constants.toList.filterMapM fun v => do
          let kind ← h.kind? v
          return if kind = some .function then v.toHandle? else none
        Machine.listFunctions h fuel (waiting ++ nested) (text ++ listing) : Except Fault String) =
        Machine.listFunctions h fuel (waiting ++ h.inner r)
          (text ++ (⟨f, title, words⟩ : ListedSection).text) := by
      rw [hlisting, hnested, hinner]
      rfl
    cases hname : f.name with
    | none =>
      refine ⟨⟨f, "<script>", words⟩, ⟨hobject, ?_, hlisted⟩, hknown, fun fuel waiting text => ?_⟩
      · rw [hname]
      · rw [Machine.listFunctions, hf, ok_bind, ← hlist]
        simp only [hname]
        rfl
    | some n =>
      obtain ⟨chars, hchars⟩ := name n hname
      obtain ⟨o, ho, hd⟩ := hw n _ hchars
      refine ⟨⟨f, chars, words⟩, ⟨hobject, ?_, hlisted⟩, hknown, fun fuel waiting text => ?_⟩
      · rw [hname]
        cases hd
        exact ⟨_, ho, rfl⟩
      · rw [Machine.listFunctions, hf, ok_bind, ← hlist]
        simp only [hname, hw.string hchars]
        rfl

/-- Functions are listed in the order in which they leave the queue. -/
theorem World.Fits.listFunctions_eq (hw : W.Fits h) (hq : h.Queue waiting order)
    (hknown : ∀ r ∈ waiting, ∃ captures, W r = some (.function captures)) :
    ∃ sections : List ListedSection, List.Forall₂ (ListedSection.Of h) order sections ∧
      ∀ fuel text, order.length ≤ fuel → Machine.listFunctions h fuel waiting text =
        .ok (text ++ String.join (sections.map ListedSection.text)) := by
  induction hq with
  | done =>
    refine ⟨[], .nil, fun fuel text _ => ?_⟩
    cases fuel <;> simp [Machine.listFunctions]
  | @next r waiting order _ ih =>
    obtain ⟨⟨captures, hr⟩, hwaiting⟩ := List.forall_mem_cons.mp hknown
    obtain ⟨s, hs, hinner, hlist⟩ := hw.exists_section hr
    obtain ⟨sections, hsections, hrest⟩ := ih fun x hx =>
      (List.mem_append.mp hx).elim (hwaiting x) (hinner x)
    refine ⟨s :: sections, .cons hs hsections, fun fuel text hfuel => ?_⟩
    cases fuel with
    | zero => exact absurd hfuel (Nat.not_succ_le_zero _)
    | succ fuel =>
      rw [hlist, hrest fuel _ (Nat.le_of_succ_le_succ hfuel), List.map_cons, String.join_cons,
        String.append_assoc]

/-! ### What the machine does at a word -/

/-- Whether the machine takes a jump: a conditional one if the top of the stack is falsey. -/
def Machine.branches (m : Machine) : Instr → Bool
  | .jumpIfFalse _ => m.stack.back?.any Value.isFalsey
  | _ => true

namespace Exec

variable {α β : Type}

/-- Takes the upvalues that captures name, and goes on behind a word for each. -/
def takeEach : List Capture → (done : Array Handle) → Exec (Array Handle)
  | [], done => pure done
  | c :: cs, done => do
    skip 1
    let r ← if c.isLocal then
        let f ← frame
        captureSlot (f.base + c.index.toNat)
      else frameUpvalue c.index.toNat
    takeEach cs (done.push r)

/-- Puts a closure of a function on the stack, with the upvalues that captures name. -/
def closeOver (function : Handle) (cs : List Capture) : Exec Unit := do
  let upvalues ← takeEach cs #[]
  let r ← alloc (.closure ⟨function, upvalues⟩)
  push (.ofHandle r)

/-- Actions that agree on what comes out of the first one agree. -/
theorem bind_congr_ok {x : Exec α} {f f' : α → Exec β}
    (hf : ∀ a m', x m = .ok a m' → f a m' = f' a m') : (x >>= f) m = (x >>= f') m := by
  show EStateM.bind x f m = EStateM.bind x f' m
  unfold EStateM.bind
  cases hx : x m with
  | ok a m' => exact hf a m' hx
  | error => rfl

/-- Going on behind a word. -/
theorem skip_ok {d : Nat} (hback : m.frames.back? = some g) :
    skip d m = .ok () { m with frames := m.frames.pop.push { g with ip := g.ip + d } } := by
  have hframe : frame m = .ok g m := by rw [frame, hback]
  rw [skip, bind_eq hframe]
  show EStateM.Result.ok () _ = _
  rw [← modify_last (fun f => { f with ip := g.ip + d }) hback]

/-- Reading a word of code. -/
theorem fetch_ok {w : UInt32} (hback : m.frames.back? = some g)
    (hword : g.chunk.code[g.ip]? = some w) : fetch m = .ok w (m.fetched g m.heap) := by
  have hframe : frame m = .ok g m := by rw [frame, hback]
  rw [fetch, bind_eq hframe]
  simp only [hword]
  rw [Machine.fetched, ← modify_last (fun f => { f with ip := g.ip + 1 }) hback]
  rfl

/-- The captures that are read are those that the words behind the instruction are. -/
theorem captures_eq {cs : List Capture} {done : Array Handle} (hback : m.frames.back? = some g)
    (hwords : ∀ n c, cs[n]? = some c →
      ∃ w, g.chunk.code[g.ip + n]? = some w ∧ Capture.decode w = c) :
    captures cs.length done m = takeEach cs done m := by
  induction cs generalizing m g done with
  | nil => rfl
  | cons c cs ih =>
    obtain ⟨w, hword, rfl⟩ := hwords 0 c rfl
    rw [List.length_cons, captures, takeEach, bind_eq (fetch_ok hback hword),
      bind_eq (skip_ok hback)]
    -- whichever way the upvalue is taken, the frames stay
    have hrest (r : Handle) (m₂ : Machine) (hframes : m₂.frames = (m.fetched g m.heap).frames) :
        captures cs.length (done.push r) m₂ = takeEach cs (done.push r) m₂ := by
      refine ih (g := { g with ip := g.ip + 1 }) ?_ fun n c hn => ?_
      · rw [hframes]
        exact Array.back?_push
      · have hnext := hwords (n + 1) c (by rwa [List.getElem?_cons_succ])
        rwa [Nat.add_comm n 1, ← Nat.add_assoc] at hnext
    by_cases hlocal : (Capture.decode w).isLocal
    · rw [if_pos hlocal, if_pos hlocal]
      refine bind_congr_ok fun f m₁ hframe => bind_congr_ok fun r m₂ htaken => hrest r m₂ ?_
      obtain ⟨rfl, -⟩ := frame_eq_ok hframe
      exact ((steady_captureSlot _).ok htaken).frames
    · rw [if_neg hlocal, if_neg hlocal]
      refine bind_congr_ok fun r m₂ htaken => hrest r m₂ ?_
      exact ((steady_frameUpvalue _).ok htaken).frames

/-- A jump that is carried out leads to its target, or behind the instruction if it is not taken. -/
theorem perform_jump (hback : m.frames.back? = some g) (hip : g.ip = o + 1)
    (htarget : i.target? o = some t) (hsize : i.operands ≤ m.stack.size)
    (hloop : ∀ d, i = .loop d → d.toNat ≤ o + 1) : perform i m = .ok () { m with
      frames := m.frames.pop.push { g with ip := if m.branches i then t else o + 1 } } := by
  cases i with
  | jump d =>
    obtain rfl := Option.some.inj htarget
    rw [← hip]
    exact skip_ok hback
  | jumpIfFalse d =>
    obtain rfl := Option.some.inj htarget
    obtain ⟨v, hv⟩ : ∃ v, m.stack.back? = some v :=
      ⟨_, Array.getElem?_eq_getElem (Nat.sub_lt hsize Nat.one_pos)⟩
    have hpeek : peek 0 m = .ok v m := by
      rw [Array.back?] at hv
      rw [peek, if_pos (show 0 < m.stack.size from hsize), Nat.sub_zero, hv]
    show (do if (← peek 0).isFalsey then skip d.toNat : Exec Unit) m = _
    rw [bind_eq hpeek, Machine.branches, hv, Option.any_some, ← hip]
    cases v.isFalsey with
    | true => exact skip_ok hback
    | false =>
      show EStateM.Result.ok () m = _
      rw [if_neg Bool.false_ne_true, ← eq_pop_push hback]
  | loop d =>
    obtain rfl := Option.some.inj htarget
    have hframe : frame m = .ok g m := by rw [frame, hback]
    have hle : ¬ g.ip < d.toNat := Nat.not_lt.mpr (hip ▸ hloop d rfl)
    show goBack d.toNat m = _
    rw [goBack, bind_eq hframe, if_neg hle, ← hip,
      show m.branches (.loop d) = true from rfl, if_pos rfl, ← modify_last (fun f => { f with ip := g.ip - d.toNat }) hback]
    rfl
  | _ => cases htarget

/-- A closure that is made has the captures that the words behind the instruction are. -/
theorem perform_closure {function : Handle} {cs : List Capture} {p : Prototype}
    (hback : m.frames.back? = some g)
    (hconstant : g.chunk.constants[k.toNat]?.bind Value.toHandle? = some function)
    (hfunction : m.heap.object? function = some (.function p)) (hcount : p.upvalueCount = cs.length)
    (hwords : ∀ n c, cs[n]? = some c →
      ∃ w, g.chunk.code[g.ip + n]? = some w ∧ Capture.decode w = c) :
    perform (.closure k) m = closeOver function cs m := by
  obtain ⟨v, hv, hat⟩ := Option.bind_eq_some_iff.mp hconstant
  have hframe : frame m = .ok g m := by rw [frame, hback]
  have hfound : constantHandle k m = .ok function m := by
    have hvalue : constant k m = .ok v m := by
      rw [constant, bind_eq hframe, hv]
      rfl
    rw [constantHandle, bind_eq hvalue, handleOf, hat]
    rfl
  have hread : readHeap (·.prototype function) m = .ok p m := by
    rw [readHeap, Heap.prototype, Heap.object, hfunction]
  show makeClosure k m = _
  rw [makeClosure, bind_eq hfound, bind_eq hread, hcount, closeOver]
  show EStateM.bind _ _ m = EStateM.bind _ _ m
  rw [EStateM.bind, EStateM.bind, captures_eq hback hwords]

end Exec

/-! ### Agreement -/

/-- The captures that a list of words starts with. -/
def ListedWord.captures : List ListedWord → List Capture
  | .capture c :: words => c :: captures words
  | _ => []

/-- The constants of a function refer on `h'` to what they refer to on `h`. -/
def Prototype.SameConstants (h h' : Heap) (f : Prototype) : Prop :=
  ∀ v ∈ f.chunk.constants, ∀ y, v.toHandle? = some y → h'.object? y = h.object? y

/-- The word at `q` is read as the capture `c` when a closure is made by an instruction before it. -/
def Prototype.ReadsCapture (h : Heap) (f : Prototype) (q : Nat) (c : Capture) : Prop :=
  ∃ o k n w, f.At h o (.closure k) ∧ n < f.captureCount h k ∧ q = o + 1 + n ∧
    f.chunk.code[q]? = some w ∧ Capture.decode w = c

/-- A section agrees with what every machine does that has read the word at an offset `o`. -/
structure ListedSection.Agrees (h : Heap) (s : ListedSection) : Prop where
  instrs : ∀ o i, (∃ text, s.words[o]? = some (.instr i text)) ↔ s.function.At h o i
  reads : ∀ q c, s.words[q]? = some (.capture c) ↔ s.function.ReadsCapture h q c
  jumps : ∀ (m : Machine) g o i text t, m.frames.back? = some g → g.chunk = s.function.chunk →
    g.ip = o + 1 → s.words[o]? = some (.instr i text) → i.target? o = some t →
      text = Chunk.jumpLine i o t ∧ (i.operands ≤ m.stack.size → Exec.perform i m = .ok () { m with
        frames := m.frames.pop.push { g with ip := if m.branches i then t else o + 1 } })
  closures : ∀ (m : Machine) g o k text, m.frames.back? = some g → g.chunk = s.function.chunk →
    g.ip = o + 1 → s.words[o]? = some (.instr (.closure k) text) →
      s.function.SameConstants h m.heap → ∃ function,
        (s.function.chunk.constants[k.toNat]?).bind Value.toHandle? = some function ∧
        Exec.perform (.closure k) m =
          Exec.closeOver function (ListedWord.captures (s.words.drop (o + 1))) m

/-- What is counted of the constants is counted the same where they refer to the same. -/
theorem Prototype.SameConstants.captureCount (hs : f.SameConstants h h') (k : UInt16) :
    f.captureCount h' k = f.captureCount h k := by
  unfold Prototype.captureCount Chunk.captureCount
  cases hv : f.chunk.constants[k.toNat]? with
  | none => rfl
  | some v =>
    cases hat : v.toHandle? with
    | none => simp only [Option.bind_some, hat]
    | some y =>
      have hsame := hs v (Array.mem_of_getElem? hv) y hat
      simp only [Option.bind_some, hat, Heap.prototype, Heap.object, hsame]

/-- So the same instructions start there. -/
theorem Prototype.SameConstants.starts (hs : f.SameConstants h h') (ho : f.Starts h o) :
    f.Starts h' o := by
  induction ho with
  | zero => exact .zero
  | @next o _ inside ih =>
    have hwidth : f.width h o = f.width h' o := by
      rw [Prototype.width, Prototype.width, funext hs.captureCount]
    exact hwidth ▸ ih.next inside

/-- The constants are the same from the other side. -/
theorem Prototype.SameConstants.symm (hs : f.SameConstants h h') : f.SameConstants h' h :=
  fun v hv y hy => (hs v hv y hy).symm

/-- Words start with as many captures as there are in front of another word. -/
theorem ListedWord.length_captures {words : List ListedWord} {count : Nat}
    (hbefore : ∀ n < count, ∃ c, words[n]? = some (.capture c))
    (hbehind : ∀ c, words[count]? ≠ some (.capture c)) : (captures words).length = count := by
  induction count generalizing words with
  | zero =>
    cases words with
    | nil => rfl
    | cons word words =>
      cases word with
      | instr => rfl
      | capture c => exact absurd rfl (hbehind c)
  | succ count ih =>
    obtain ⟨c, hc⟩ := hbefore 0 (Nat.succ_pos count)
    cases words with
    | nil => cases hc
    | cons word words =>
      obtain rfl := Option.some.inj hc
      rw [captures, List.length_cons, ih (fun n hn => hbefore (n + 1) (Nat.succ_lt_succ hn)) hbehind]

/-- They are captures among the words. -/
theorem ListedWord.getElem?_captures {words : List ListedWord} {n : Nat} {c : Capture}
    (hc : (captures words)[n]? = some c) : words[n]? = some (.capture c) := by
  induction words generalizing n with
  | nil => cases hc
  | cons word words ih =>
    cases word with
    | instr => cases hc
    | capture c' =>
      cases n with
      | zero => exact congrArg (some ∘ ListedWord.capture) (Option.some.inj hc)
      | succ n => exact ih hc

/-- The captures that are listed behind a closure instruction are those that it has. -/
theorem Prototype.Listed.captures_eq {words : List ListedWord} (hl : f.Listed h words)
    (hf : f.WellFormed h) (hi : f.At h o (.closure k)) :
    (ListedWord.captures (words.drop (o + 1))).length = f.captureCount h k ∧
      ∀ n c, (ListedWord.captures (words.drop (o + 1)))[n]? = some c →
        ∃ w, f.chunk.code[o + 1 + n]? = some w ∧ Capture.decode w = c := by
  have hin : o < f.chunk.code.size := by
    obtain ⟨w, hw, -⟩ := Option.bind_eq_some_iff.mp hi.instr
    exact (Array.getElem?_eq_some_iff.mp hw).1
  have hnext := hi.start.next hin
  have hroom := hf.whole.2 _ hnext
  have hwidth : f.width h o = 1 + f.captureCount h k := by
    rw [Prototype.width, hi.instr]
    rfl
  rw [hwidth, ← Nat.add_assoc] at hnext hroom
  refine ⟨ListedWord.length_captures (fun n hn => ?_) (fun c hc => ?_), fun n c hc => ?_⟩
  · have hword : o + 1 + n < f.chunk.code.size := by omega
    refine ⟨_, (List.getElem?_drop ..).trans (hl.capture_iff.mpr
      ⟨o, k, n, _, hi, hn, rfl, Array.getElem?_eq_getElem hword, rfl⟩)⟩
  · rw [List.getElem?_drop] at hc
    obtain ⟨o', k', n, w, hat, hn, hq, -⟩ := hl.capture_iff.mp hc
    exact hnext.not_capture hat hn hq
  · have hword := ListedWord.getElem?_captures hc
    rw [List.getElem?_drop] at hword
    obtain ⟨-, -, -, w, -, -, -, hw, hdecode⟩ := hl.capture_iff.mp hword
    exact ⟨w, hw, hdecode⟩

/-- The section of a well-formed function agrees with the machine. -/
theorem ListedSection.Of.agrees {s : ListedSection} (hs : s.Of h r)
    (hf : s.function.WellFormed h) : s.Agrees h where
  instrs _ _ := hs.listed.instr_iff
  reads _ _ := hs.listed.capture_iff
  jumps m g o i text t hback hchunk hip hword htarget := by
    cases hs.listed.lists o _ hword with
    | instr at_ shown =>
      refine ⟨shown.jumps t htarget, fun hsize => Exec.perform_jump hback hip htarget hsize ?_⟩
      rintro d rfl
      exact hf.loops o d at_
  closures m g o k text hback hchunk hip hword hsame := by
    have hi := hs.listed.instr_iff.mp ⟨text, hword⟩
    obtain ⟨hlength, hcaptures⟩ := hs.listed.captures_eq hf hi
    obtain ⟨v, function, p, hv, hat, hp⟩ := hf.constants o _ k .function hi rfl
    have hfunction : m.heap.object? function = some (.function p) :=
      (hsame v (Array.mem_of_getElem? hv) function hat).trans hp
    have hcount : s.function.captureCount h k = p.upvalueCount := by
      rw [Prototype.captureCount, Chunk.captureCount, hv]
      simp only [Option.bind_some, hat, Heap.prototype, Heap.object, hp]
      rfl
    refine ⟨function, by rw [hv, Option.bind_some, hat], Exec.perform_closure hback ?_ hfunction
      (hcount.symm.trans hlength.symm) fun n c hc => ?_⟩
    · rw [hchunk, hv, Option.bind_some, hat]
    · rw [hchunk, hip]
      exact hcaptures n c hc

namespace Machine

variable {settings : Settings} {journal : Journal} {sink : Sink} {s : ListedSection} {source : String}

/-- A machine that carries out a listed function is at an instruction of the listing, and a jump
there leads where the listing has it. -/
theorem Ready.listed (hm : m.Ready) (hs : s.Of h r) (hf : s.function.WellFormed h)
    (hback : m.frames.back? = some g) (hg : m.Executes g s.function)
    (hsame : s.function.SameConstants h m.heap) :
    ∃ i text, s.words[g.ip]? = some (.instr i text) ∧ m.next? = some i ∧
      ∀ t, i.target? g.ip = some t → ∃ m', Exec.step m = .ok .running m' ∧
        m'.frames = m.frames.pop.push { g with ip := if m.branches i then t else g.ip + 1 } := by
  obtain ⟨W, O, hshows, hpoised⟩ := id hm
  cases hpoised with
  | @intro a others below A outer base lands =>
    obtain rfl : a.frame = g := Option.some.inj ((hshows.back_frames rfl).symm.trans hback)
    have hruns := hshows.runs a List.mem_cons_self
    have hfunction : s.function = a.prototype :=
      hg.unique (hshows.executes (a := a) List.mem_cons_self)
    obtain ⟨i, E, hword, -, -⟩ := Exec.exists_step hruns lands
    have hnext := hshows.next?_eq hword
    -- the offset is where the instruction starts
    have hat : s.function.At h a.frame.ip i := by
      refine ⟨hsame.symm.starts ?_, ?_⟩
      · rw [hfunction]
        exact ((hruns.laidOut hshows.fits).lands lands).1.1
      · rw [next?, hback, Option.bind_some] at hnext
        rwa [Prototype.instr?, ← hg.chunk]
    have hagrees := hs.agrees hf
    obtain ⟨text, hlisted⟩ := (hagrees.instrs _ _).mpr hat
    refine ⟨i, text, hlisted, hnext, fun t ht => ?_⟩
    obtain ⟨f, h', hf', -, hstep⟩ := hm.fetches hnext
    obtain rfl := Option.some.inj (hback.symm.trans hf')
    obtain ⟨f, -, hsize, -⟩ := hm.depth hnext
    obtain ⟨-, hjump⟩ := hagrees.jumps (m.fetched a.frame h') _ _ i text t Array.back?_push
      hg.chunk rfl hlisted ht
    have hperformed := hjump (Nat.le_of_add_left_le hsize)
    have hcarried : Exec.step m = (do Exec.perform i; return .running : Exec Progress)
        (m.fetched a.frame h') := by
      rw [hstep]
      cases i with
      | return_ => cases ht
      | _ => rfl
    have hbranches : (m.fetched a.frame h').branches i = m.branches i := by cases i <;> rfl
    refine ⟨_, hcarried.trans (Exec.bind_eq hperformed), ?_⟩
    show (m.fetched a.frame h').frames.pop.push { a.frame with
      ip := if (m.fetched a.frame h').branches i then t else a.frame.ip + 1 } = _
    rw [hbranches, fetched, Array.pop_push]

/-- The listing of a source agrees with the machine. Whenever a source compiles, listing it ends, with
one section for each function that the script leads to: the script first, and level by level. A
section has a line for every word of the code, in order: a line with a capture where a closure that
is made reads one, and one with the instruction elsewhere. Every machine that has read a listed jump
goes on at the target in its line, and every machine that has read a closure instruction takes the
captures listed behind it. A machine that runs in a session and carries out a listed function is at
a listed instruction. -/
theorem sessions_disassemble {r : Handle} (hm : Reached settings journal sink .resting m)
    (hdone : m.compile source = (.function r, m')) :
    ∃ (order : List Handle) (sections : List ListedSection),
      m.disassemble source = (.listing (String.join (sections.map ListedSection.text)), m') ∧
      (∃ depth, m'.heap.level [r] depth = [] ∧ order = m'.heap.levels [r] depth) ∧
      order.head? = some r ∧ order.Nodup ∧
      (∀ x, x ∈ order ↔ m'.heap.Reachable [r] x ∧ ∃ f, m'.heap.object? x = some (.function f)) ∧
      List.Forall₂ (ListedSection.Of m'.heap) order sections ∧
      ∀ s ∈ sections, s.Agrees m'.heap ∧
        ∀ n, Reached settings journal sink .running n → ∀ g, n.frames.back? = some g →
          n.Executes g s.function → s.function.SameConstants m'.heap n.heap →
            ∃ i text, s.words[g.ip]? = some (.instr i text) ∧ n.next? = some i ∧
              ∀ t, i.target? g.ip = some t → ∃ n', Exec.step n = .ok .running n' ∧
                n'.frames = n.frames.pop.push
                  { g with ip := if n.branches i then t else g.ip + 1 } := by
  obtain ⟨V, hshows⟩ := hm.inPhase
  obtain ⟨hresult, hheap⟩ := Prod.mk.inj hdone
  obtain ⟨W, hscripted⟩ := Compile.scripted_of_compile hshows.sound (hshows.covers hshows.lists)
    (Prod.ext hresult (congrArg Machine.heap hheap))
  obtain ⟨⟨f, hf, -⟩, hwell⟩ := hscripted.isProgram
  obtain ⟨depth, hdepth, hhead, hnodup, hlength, hmem⟩ := hscripted.planted.exists_order hf
  have hknown : ∀ x ∈ [r], ∃ captures, W x = some (.function captures) := fun x hx =>
    ⟨[], List.mem_singleton.mp hx ▸ hscripted.function⟩
  obtain ⟨sections, hsections, hlisted⟩ :=
    hscripted.fits.listFunctions_eq (Heap.queue_levels hdepth) hknown
  refine ⟨_, sections, ?_, ⟨depth, hdepth, rfl⟩, hhead, hnodup, hmem, hsections, fun s hs => ?_⟩
  · rw [disassemble, hdone]
    simp only [hlisted UInt32.size "" hlength, String.empty_append]
  · obtain ⟨x, hx, hof⟩ := exists_of_mem_right hsections hs
    have hwf := hwell x s.function ((hmem x).mp hx).1 hof.object
    exact ⟨hof.agrees hwf, fun n hn g hback hg hsame => hn.inPhase.listed hof hwf hback hg hsame⟩

/-- A function that captures a parameter of the function around it is listed. -/
theorem captured_parameter_listed : ∃ m m' r order sections,
    Reached Settings.standard Journal.off Sink.unlimited .resting m ∧
    m.compile "def f(x) \x7b\n  def g() \x7b\n    return x;\n  \x7d\n  return g;\n\x7d\n" =
      (.function r, m') ∧
    m.disassemble "def f(x) \x7b\n  def g() \x7b\n    return x;\n  \x7d\n  return g;\n\x7d\n" =
      (.listing (String.join (sections.map ListedSection.text)), m') ∧
    order.head? = some r ∧ order.Nodup ∧ List.Forall₂ (ListedSection.Of m'.heap) order sections ∧
    ∀ s ∈ sections, s.Agrees m'.heap := by
  have hcompiles : (create Settings.standard Journal.off Sink.unlimited).toOption.any (fun m =>
      (m.compile
        "def f(x) \x7b\n  def g() \x7b\n    return x;\n  \x7d\n  return g;\n\x7d\n").1.casesOn
          (motive := fun _ => Bool) (fun _ => true) (fun _ => false) fun _ => false) = true := by
    decide +kernel
  obtain ⟨m, hcreated, hcompiles⟩ := exists_created hcompiles
  cases hdone : m.compile
      "def f(x) \x7b\n  def g() \x7b\n    return x;\n  \x7d\n  return g;\n\x7d\n" with
  | mk result m' =>
    rw [hdone] at hcompiles
    cases result with
    | function r =>
      have hreached : Reached Settings.standard Journal.off Sink.unlimited .resting m :=
        .created hcreated
      obtain ⟨order, sections, hlisting, -, hhead, hnodup, -, hsections, hagrees⟩ :=
        sessions_disassemble hreached hdone
      exact ⟨m, m', r, order, sections, hreached, hdone, hlisting, hhead, hnodup, hsections,
        fun s hs => (hagrees s hs).1⟩
    | _ => cases hcompiles

end Machine

end ScriptMachine
