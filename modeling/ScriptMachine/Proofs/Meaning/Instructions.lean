import ScriptMachine.Proofs.Meaning.Mirroring

/-!
# Instructions beside an evaluation

Each instruction of the core does what its part of the evaluation does: it takes the operands from
the top of the stack and leaves the result there, reads or changes the one variable that the
evaluation reads or changes, and stops with the same error. Whatever the stack and the globals refer
to stays as it is when a text is made.
-/

namespace ScriptMachine

open Exec
open Compile (Access)

/-! ### What stays as it is -/

/-- The globals stand for the same as long as what they refer to is the same. -/
theorem Machine.Reflects.carry {m m' : Machine} {natives : String → Option Value} {σ : Store}
    (h : m.Reflects natives σ) (hglobals : m'.globals = m.globals) (hsink : m'.sink = m.sink)
    (hopen : m'.openUpvalues = m.openUpvalues)
    (hsame : ∀ x, m.globals.Stores x → m'.heap.object? x = m.heap.object? x) :
    m'.Reflects natives σ where
  globals name := by
    have hentry : m'.global? name = m.global? name := by
      rw [Machine.global?, Machine.global?, hglobals]
      exact Heap.under?_congr hsame
    have hrel := h.globals name
    rw [hentry]
    generalize hv : m.global? name = found at hrel ⊢
    generalize σ.globals name = known at hrel ⊢
    cases hrel with
    | none => exact .none
    | some hd =>
      obtain ⟨k, hlive⟩ := Heap.live_of_under? hv
      exact .some (hd.carry fun r hr => hsame r (.value hlive hr))
  sink := hsink.trans h.sink
  closed := hopen.trans h.closed

namespace Script

variable {S : Script} {m m' : Machine} {ip n : Nat} {vars : List (List String)} {σ σ' : Store}
  {d a b : Datum} {ds : List Datum} {v : Value} {heap : Heap} {i : Instr} {ws vs : List UInt32}
  {k : UInt16} {name : String} {slot : Nat}

namespace Holds

/-- The script is the innermost frame. -/
theorem back (h : S.Holds ip vars σ ds m) : m.frames.back? = some ⟨S.closure, S.chunk, ip, 0⟩ := by
  rw [h.frames]
  rfl

/-- The constants of the script are kept alive. -/
theorem keeps_constant {r : Handle} (h : S.Holds ip vars σ ds m) (hm : m.Shown)
    (hr : S.body.constants[k.toNat]? = some (.ofHandle r)) : m.Keeps r := by
  obtain ⟨W, O, hm⟩ := hm
  have hframes := hm.frames
  rw [h.frames] at hframes
  obtain ⟨a, rest, hactive, hframe, -⟩ := List.map_eq_cons_iff.mp hframes.symm
  have ha : a ∈ O.active := hactive ▸ List.mem_cons_self
  have hruns := hm.runs a ha
  rw [S.constants, Array.getElem?_toList] at hr
  have hmem : Value.ofHandle r ∈ a.prototype.chunk.constants := by
    rw [← hruns.chunk, hframe]
    exact Array.mem_of_getElem? hr
  exact (hm.keeps_function ha).step hruns.function
    (.functionConstant hmem (Value.toHandle?_ofHandle r))

/-- What is there stays as it is where everything that is kept alive does. -/
theorem carry (h : S.Holds ip vars σ ds m) (hm : m.Shown) (hframes : m'.frames = m.frames)
    (hstack : m'.stack = m.stack) (hopen : m'.openUpvalues = m.openUpvalues)
    (hglobals : m'.globals = m.globals) (hsink : m'.sink = m.sink)
    (hsame : ∀ x, m.Keeps x → m'.heap.object? x = m.heap.object? x) :
    S.Holds ip vars σ ds m' where
  toReflects := h.toReflects.carry hglobals hsink hopen fun x hx =>
    hsame x (.root (Machine.mem_roots.mpr (.inr (.inr (.inr (.inl hx))))))
  declared := h.declared
  frames := hframes.trans h.frames
  values := by
    obtain ⟨c, vs, hvs, hdenote⟩ := h.values
    refine ⟨c, vs, by rw [hstack, hvs], ?_⟩
    have hmem : ∀ v ∈ vs, v ∈ m.stack := fun v hv =>
      Array.mem_toList_iff.mp (hvs ▸ List.mem_cons_of_mem _ (List.mem_reverse.mpr hv))
    clear hvs
    generalize ds ++ σ.values = ds at hdenote
    induction hdenote with
    | nil => exact .nil
    | cons hd _ ih =>
      obtain ⟨hv, hvs⟩ := List.forall_mem_cons.mp hmem
      exact .cons (hd.carry fun r hr => hsame r (.root (Machine.mem_roots.mpr (.inl ⟨_, hv, hr⟩))))
        (ih hvs)
  names k name hname := by
    obtain ⟨r, text, hr, htext, hchars⟩ := h.names k name hname
    exact ⟨r, text, hr, (hsame r (h.keeps_constant hm hr)).trans htext, hchars⟩

/-- The control may go elsewhere. -/
theorem goTo (h : S.Holds ip vars σ ds m) (ip' : Nat) :
    S.Holds ip' vars σ ds { m with frames := #[⟨S.closure, S.chunk, ip', 0⟩] } :=
  { h with frames := rfl }

/-- A value is put on the stack. -/
theorem push (h : S.Holds ip vars σ ds m) (hv : m.heap.Denotes S.natives v d) :
    S.Holds ip vars σ (d :: ds) { m with stack := m.stack.push v } := by
  obtain ⟨c, vs, hvs, hdenote⟩ := h.values
  exact { h with values := ⟨c, v :: vs, by simp [hvs], .cons hv hdenote⟩ }

/-- The operand on top of the stack. -/
theorem exists_top (h : S.Holds ip vars σ (d :: ds) m) : ∃ below v, m.stack = below.push v ∧
    m.heap.Denotes S.natives v d ∧ S.Holds ip vars σ ds { m with stack := below } := by
  obtain ⟨c, vs, hvs, hdenote⟩ := h.values
  cases hdenote with
  | @cons v _ vs _ hv hrest =>
    have hstack : m.stack.toList = ((c :: vs.reverse).toArray.push v).toList := by
      rw [hvs]
      simp
    exact ⟨(c :: vs.reverse).toArray, v, Array.toList_inj.mp hstack, hv,
      { h with values := ⟨c, vs, rfl, hrest⟩ }⟩

/-- The two operands on top of the stack. -/
theorem exists_two (h : S.Holds ip vars σ (b :: a :: ds) m) : ∃ below v w,
    m.stack = (below.push v).push w ∧ m.heap.Denotes S.natives v a ∧
      m.heap.Denotes S.natives w b ∧ S.Holds ip vars σ ds { m with stack := below } := by
  obtain ⟨below₁, w, hstack, hw, hrest⟩ := h.exists_top
  obtain ⟨below, v, hstack₁, hv, hrest⟩ := hrest.exists_top
  obtain rfl : below₁ = below.push v := hstack₁
  exact ⟨below, v, w, hstack, hv, hw, hrest⟩

end Holds

/-! ### Steps -/

/-- The machine runs the script at an offset. -/
def At (S : Script) (ip : Nat) (vars : List (List String)) (σ : Store) (ds : List Datum)
    (m : Machine) : Prop :=
  m.Ready ∧ S.Holds ip vars σ ds m

/-- A machine that is ready is shown. -/
theorem shown_of_ready (hm : m.Ready) : m.Shown := by
  obtain ⟨W, O, hshows, -⟩ := hm
  exact ⟨W, O, hshows⟩

/-- The machine carries out the next instruction. -/
theorem At.step {α : Type} {Q : α → Store → Machine → Prop} {r : EStateM.Result Stop Store α}
    (h : S.At ip vars σ ds m) (hi : S.chunk.code[ip]? = some i.encode) (hno : i ≠ .return_)
    (hdoes : ∀ n, n.Shown → S.Holds (ip + 1) vars σ ds n →
      S.Mimics () Q (perform i n) r) :
    S.Runs m r fun a σ' m' => m'.Ready ∧ Q a σ' m' := by
  obtain ⟨hm, hholds⟩ := h
  have hnext : m.next? = some i := by
    rw [Machine.next?, hholds.back, Option.bind_some, hi]
    exact Instr.decode?_encode i
  obtain ⟨f, heap, hback, halike, hstep⟩ := hm.step_eq hnext hno
  obtain rfl : ⟨S.closure, S.chunk, ip, 0⟩ = f := Option.some.inj (hholds.back.symm.trans hback)
  obtain ⟨W, O, O', -, hshown⟩ := hm.shows_fetched hback halike
  have hfetched : S.Holds (ip + 1) vars σ ds (m.fetched ⟨S.closure, S.chunk, ip, 0⟩ heap) := by
    have hcarried : S.Holds ip vars σ ds { m with heap := heap } :=
      hholds.carry (shown_of_ready hm) rfl rfl rfl rfl rfl fun x _ => halike.object? x
    have := hcarried.goTo (ip + 1)
    rwa [show #[⟨S.closure, S.chunk, ip + 1, 0⟩] = m.frames.pop.push
      (⟨S.closure, S.chunk, ip + 1, 0⟩ : Frame) by rw [hholds.frames]; rfl] at this
  have hmimics := hdoes _ ⟨W, O', hshown⟩ hfetched
  have hready := does_step hm
  refine ⟨1, ?_⟩
  rw [run_one]
  generalize hperform : perform i (m.fetched ⟨S.closure, S.chunk, ip, 0⟩ heap) = result at hmimics
  cases hmimics with
  | ok holds =>
    rw [hstep.trans (bind_eq hperform)] at hready ⊢
    rcases hready with ⟨-, hready⟩ | ⟨hfinished, -⟩
    · exact .ok ⟨hready, holds⟩
    · cases hfinished
  | error reflects =>
    rw [hstep.trans (bind_error hperform)]
    exact .error reflects
  | full =>
    rw [hstep.trans (bind_error hperform)]
    exact .full
  | unfinished => exact .unfinished

/-! ### Instructions on values -/

/-- A constant of the script. -/
theorem Holds.constant (h : S.Holds ip vars σ ds m) (hk : S.body.constants[k.toNat]? = some v) :
    Exec.constant k m = .ok v m := by
  have hframe : frame m = .ok ⟨S.closure, S.chunk, ip, 0⟩ m := by rw [frame, h.back]
  rw [S.constants, Array.getElem?_toList] at hk
  rw [Exec.constant, bind_eq hframe]
  simp only [hk]
  rfl

/-- A constant of the script that is a name. -/
theorem Holds.constantHandle (h : S.Holds ip vars σ ds m) (hk : S.body.Names k name) :
    ∃ r s, S.body.constants[k.toNat]? = some (.ofHandle r) ∧ Exec.constantHandle k m = .ok r m ∧
      m.heap.object? r = some (.string s) ∧ s.chars = name := by
  obtain ⟨r, s, hr, hs, hchars⟩ := h.names k name hk
  refine ⟨r, s, hr, ?_, hs, hchars⟩
  rw [Exec.constantHandle, bind_eq (h.constant hr), handleOf, Value.toHandle?_ofHandle]
  rfl

/-- An instruction that puts a value on the stack. -/
theorem At.pushes (h : S.At ip vars σ ds m) (hi : S.chunk.code[ip]? = some i.encode) (hno : i ≠ .return_)
    (hpush : ∀ n, n.Shown → S.Holds (ip + 1) vars σ ds n →
      ∃ v, perform i n = Exec.push v n ∧ n.heap.Denotes S.natives v d) :
    S.Runs m ((pure d : Eval Datum) σ) fun d σ' => S.At (ip + 1) vars σ' (d :: ds) :=
  h.step hi hno fun n hn hholds => by
    obtain ⟨v, hperform, hv⟩ := hpush n hn hholds
    rw [hperform]
    exact .ok (hholds.push hv)

/-- The operand on top of the stack is dropped. -/
theorem At.pop (h : S.At ip vars σ (d :: ds) m) (hi : S.chunk.code[ip]? = some Instr.pop.encode) :
    S.Runs m ((pure () : Eval Unit) σ) fun _ σ' => S.At (ip + 1) vars σ' ds :=
  h.step hi (fun heq => by cases heq) fun n hn hholds => by
    obtain ⟨below, v, hstack, -, hrest⟩ := hholds.exists_top
    rw [show perform .pop n = _ from drop_top hstack]
    exact .ok hrest

/-- The operand on top of the stack is replaced by whether it is false. -/
theorem At.not (h : S.At ip vars σ (d :: ds) m) (hi : S.chunk.code[ip]? = some Instr.not.encode) :
    S.Runs m ((pure (.truth d.isFalsey) : Eval Datum) σ) fun d σ' =>
      S.At (ip + 1) vars σ' (d :: ds) :=
  h.step hi (fun heq => by cases heq) fun n hn hholds => by
    obtain ⟨below, v, hstack, hv, hrest⟩ := hholds.exists_top
    have hperform : perform .not n = .ok () { n with stack := below.push (.ofBool v.isFalsey) } :=
      bind_eq (pop_top hstack)
    rw [hperform, hv.isFalsey]
    exact .ok (hrest.push .truth)

/-- A number on top of the stack is replaced by its opposite. -/
theorem At.negate (h : S.At ip vars σ (d :: ds) m) (hi : S.chunk.code[ip]? = some Instr.negate.encode) :
    S.Runs m (Eval.negate d σ) fun d σ' => S.At (ip + 1) vars σ' (d :: ds) :=
  h.step hi (fun heq => by cases heq) fun n hn hholds => by
    obtain ⟨below, v, hstack, hv, hrest⟩ := hholds.exists_top
    have htypes : [v].mapM n.heap.typeName = .ok [d.typeName] := by
      rw [List.mapM_cons, hv.typeName]
      rfl
    have hfloat := hv.toFloat?
    have hreflects := hholds.toReflects
    show S.Mimics _ _ (Exec.negate n) _
    rw [Exec.negate, bind_eq (peek_top hstack), hfloat]
    cases d with
    | number x =>
      show S.Mimics _ _ ((drop >>= fun _ => Exec.push (.ofFloat (-x))) n) _
      rw [bind_eq (drop_top hstack)]
      exact .ok (hrest.push .number)
    | _ =>
      show S.Mimics _ _ (raiseMismatch .minus .number [v] n) _
      rw [raiseMismatch, bind_eq (readHeap_eq htypes)]
      exact .error hreflects

/-- An operation on two numbers, which are replaced by the result. -/
theorem At.arithmetic {operator : Symbol} {f : Float → Float → Value} {g : Float → Float → Datum}
    (h : S.At ip vars σ (b :: a :: ds) m) (hi : S.chunk.code[ip]? = some i.encode) (hno : i ≠ .return_)
    (hperform : perform i = Exec.arithmetic operator f)
    (hg : ∀ heap x y, Heap.Denotes heap S.natives (f x y) (g x y)) :
    S.Runs m (Eval.numbers operator g a b σ) fun d σ' => S.At (ip + 1) vars σ' (d :: ds) :=
  h.step hi hno fun n hn hholds => by
    obtain ⟨below, v, w, hstack, hv, hw, hrest⟩ := hholds.exists_two
    rw [hperform]
    have hrefuses (hno : a.number? = none ∨ b.number? = none) :
        Exec.arithmetic operator f n =
          .error (.error (.typeMismatch operator .numbers [a.typeName, b.typeName])) n := by
      rw [← hv.toFloat?, ← hw.toFloat?] at hno
      exact arithmetic_refused operator f hstack hno hv.typeName hw.typeName
    have hreflects := hholds.toReflects
    cases a with
    | number x =>
      cases b with
      | number y =>
        rw [arithmetic_top operator f hstack hv.toFloat? hw.toFloat?]
        exact .ok (hrest.push (hg _ x y))
      | _ =>
        rw [hrefuses (.inr rfl)]
        exact .error hreflects
    | _ =>
      rw [hrefuses (.inl rfl)]
      exact .error hreflects

/-- Two operands are replaced by whether they are the same. -/
theorem At.equal (h : S.At ip vars σ (b :: a :: ds) m) (hi : S.chunk.code[ip]? = some Instr.equal.encode) :
    S.Runs m ((pure (.truth (a.same b)) : Eval Datum) σ) fun d σ' =>
      S.At (ip + 1) vars σ' (d :: ds) :=
  h.step hi (fun heq => by cases heq) fun n ⟨W, O, hn⟩ hholds => by
    obtain ⟨below, v, w, hstack, hv, hw, hrest⟩ := hholds.exists_two
    have hnext : ({ n with stack := below.push v } : Machine).stack = below.push v := rfl
    show S.Mimics _ _ (Exec.equal n) _
    rw [Exec.equal, bind_eq (pop_top hstack), bind_eq (pop_top hnext), hv.same hn.sound hw]
    exact .ok (hrest.push .truth)

end Script

/-! ### Sums -/

namespace Exec

variable {m : Machine} {below : Array Value} {v w : Value} {x y : Float} {s t : Option Interned}

/-- Two numbers are replaced by their sum. -/
theorem add_numbers (h : m.stack = (below.push v).push w) (hv : v.toFloat? = some x)
    (hw : w.toFloat? = some y) :
    add m = .ok () { m with stack := below.push (.ofFloat (x + y)) } := by
  have hnext : ({ m with stack := below.push v } : Machine).stack = below.push v := rfl
  rw [add, bind_eq (peek_top h), bind_eq (peek_second h)]
  simp only [hv, hw]
  rw [bind_eq (drop_top h), bind_eq (drop_top hnext)]
  rfl

/-- What are not two numbers has to be two texts. -/
theorem add_others (h : m.stack = (below.push v).push w)
    (hno : v.toFloat? = none ∨ w.toFloat? = none) (hs : m.heap.string? v = .ok s)
    (ht : m.heap.string? w = .ok t) : add m = (do
      match s, t with
      | some s, some t =>
        let r ← intern (s.chars ++ t.chars)
        drop
        drop
        push (.ofHandle r)
      | _, _ => raiseMismatch .plus .numbersOrStrings [v, w] : Exec Unit) m := by
  have hread : (do
      match ← readHeap (·.string? v), ← readHeap (·.string? w) with
      | some s, some t =>
        let r ← intern (s.chars ++ t.chars)
        drop
        drop
        push (.ofHandle r)
      | _, _ => raiseMismatch .plus .numbersOrStrings [v, w] : Exec Unit) m = _ :=
    (bind_eq (readHeap_eq hs)).trans (bind_eq (readHeap_eq ht))
  rw [add, bind_eq (peek_top h), bind_eq (peek_second h)]
  rcases hno with hno | hno
  · simp only [hno]
    exact hread
  · cases v.toFloat? <;> simp only [hno] <;> exact hread

/-- What are neither two numbers nor two texts is refused. -/
theorem add_refused {tv tw : String} (h : m.stack = (below.push v).push w)
    (hno : v.toFloat? = none ∨ w.toFloat? = none) (hs : m.heap.string? v = .ok s)
    (ht : m.heap.string? w = .ok t) (hno' : s = none ∨ t = none)
    (hv : m.heap.typeName v = .ok tv) (hw : m.heap.typeName w = .ok tw) :
    add m = .error (.error (.typeMismatch .plus .numbersOrStrings [tv, tw])) m := by
  have htypes : [v, w].mapM m.heap.typeName = .ok [tv, tw] := by
    rw [List.mapM_cons, hv, List.mapM_cons, hw]
    rfl
  have hraised : (raiseMismatch .plus .numbersOrStrings [v, w] : Exec Unit) m =
      .error (.error (.typeMismatch .plus .numbersOrStrings [tv, tw])) m := by
    rw [raiseMismatch, bind_eq (readHeap_eq htypes)]
    rfl
  rw [add_others h hno hs ht]
  rcases hno' with rfl | rfl
  · exact hraised
  · cases s <;> exact hraised

/-- A text is interned, unless no space is left for it. -/
theorem intern_cases (chars : String) (hm : m.Shown) :
    (∃ r h, intern chars m = .ok r { m with heap := h } ∧
      m.heap.InternedAs m.roots chars r h) ∨
    intern chars m = .error (.fault .arenaFull) { m with heap := Heap.absent } := by
  obtain ⟨W, O, hshows⟩ := hm
  rcases hshows.sound.intern chars (hshows.covers hshows.lists) with ⟨r, h, hok, hi⟩ | hfull
  · exact .inl ⟨r, h, changeHeapRooted_eq hok, hi⟩
  · have hsame : m.heap.intern chars (fun _ => { m with heap := Heap.absent }.roots) =
        .error .arenaFull := hfull
    refine .inr ?_
    rw [intern, changeHeapRooted]
    simp only [hsame]

end Exec

namespace Script

variable {S : Script} {m : Machine} {ip : Nat} {vars : List (List String)} {σ : Store} {d a b : Datum}
  {ds : List Datum} {k : UInt16} {name : String}

/-- Two texts are replaced by the text that joins them, unless no space is left for it. -/
theorem Holds.add_texts {s t : String} (h : S.Holds ip vars σ (.text t :: .text s :: ds) m)
    (hm : m.Shown) : S.Mimics () (fun d σ' m' => S.Holds ip vars σ' (d :: ds) m')
      (Exec.add m) ((pure (.text (s ++ t)) : Eval Datum) σ) := by
  obtain ⟨below, v, w, hstack, hv, hw, -⟩ := h.exists_two
  obtain ⟨found, hs, hfound⟩ := hv.string?
  obtain ⟨found', ht, hfound'⟩ := hw.string?
  obtain ⟨s', rfl, rfl⟩ := Option.map_eq_some_iff.mp hfound
  obtain ⟨t', rfl, rfl⟩ := Option.map_eq_some_iff.mp hfound'
  rw [add_others hstack (.inl hv.toFloat?) hs ht]
  rcases intern_cases (s'.chars ++ t'.chars) hm with ⟨r, heap, hinterned, hi⟩ | hstops
  · have hkept : S.Holds ip vars σ (.text t'.chars :: .text s'.chars :: ds) { m with heap := heap } :=
      h.carry hm rfl rfl rfl rfl rfl hi.kept
    obtain ⟨below, v, w, hstack, -, -, hrest⟩ := hkept.exists_two
    have hnext : ({ m with heap := heap, stack := below.push v } : Machine).stack = below.push v := rfl
    show S.Mimics _ _ ((Exec.intern (s'.chars ++ t'.chars) >>= fun r => drop >>= fun _ =>
      drop >>= fun _ => Exec.push (.ofHandle r)) m) _
    rw [bind_eq hinterned, bind_eq (drop_top hstack), bind_eq (drop_top hnext)]
    exact .ok (hrest.push (.text hi.new))
  · show S.Mimics _ _ ((Exec.intern (s'.chars ++ t'.chars) >>= fun r => drop >>= fun _ =>
      drop >>= fun _ => Exec.push (.ofHandle r)) m) _
    rw [bind_error hstops]
    exact .full

/-- Two numbers are replaced by their sum, and two texts by the text that joins them. -/
theorem At.add (h : S.At ip vars σ (b :: a :: ds) m) (hi : S.chunk.code[ip]? = some Instr.add.encode) :
    S.Runs m (Eval.add a b σ) fun d σ' => S.At (ip + 1) vars σ' (d :: ds) :=
  h.step hi (fun heq => by cases heq) fun n hn hholds => by
    obtain ⟨below, v, w, hstack, hv, hw, hrest⟩ := hholds.exists_two
    obtain ⟨s, hs, htext⟩ := hv.string?
    obtain ⟨t, ht, htext'⟩ := hw.string?
    have hreflects := hholds.toReflects
    have hrefuses (hno : a.number? = none ∨ b.number? = none)
        (hno' : a.text? = none ∨ b.text? = none) : Exec.add n =
          .error (.error (.typeMismatch .plus .numbersOrStrings [a.typeName, b.typeName])) n := by
      rw [← hv.toFloat?, ← hw.toFloat?] at hno
      rw [← htext, ← htext', Option.map_eq_none_iff, Option.map_eq_none_iff] at hno'
      exact add_refused hstack hno hs ht hno' hv.typeName hw.typeName
    show S.Mimics _ _ (Exec.add n) _
    cases a with
    | number x =>
      cases b with
      | number y =>
        rw [add_numbers hstack hv.toFloat? hw.toFloat?]
        exact .ok (hrest.push .number)
      | _ =>
        rw [hrefuses (.inr rfl) (.inl rfl)]
        exact .error hreflects
    | text s =>
      cases b with
      | text t => exact hholds.add_texts hn
      | _ =>
        rw [hrefuses (.inl rfl) (.inr rfl)]
        exact .error hreflects
    | _ =>
      rw [hrefuses (.inl rfl) (.inl rfl)]
      exact .error hreflects

/-! ### Printing and jumps -/

/-- The operand on top of the stack is printed on a line of its own, unless the writer refuses it. -/
theorem At.print (h : S.At ip vars σ (d :: ds) m) (hi : S.chunk.code[ip]? = some Instr.print.encode) :
    S.Runs m (Eval.print d σ) fun _ σ' => S.At (ip + 1) vars σ' ds :=
  h.step hi (fun heq => by cases heq) fun n hn hholds => by
    obtain ⟨below, v, hstack, hv, hrest⟩ := hholds.exists_top
    have hread : readHeap (·.display v) { n with stack := below } =
        .ok d.shown { n with stack := below } := readHeap_eq hv.display
    have hsink : n.sink = σ.sink := hrest.sink
    show S.Mimics _ _ (Exec.print n) _
    rw [Exec.print, bind_eq (pop_top hstack), bind_eq hread, printLine, Eval.print]
    simp only [hsink]
    generalize σ.sink.give d.shown = answer
    obtain ⟨error, sink⟩ := answer
    cases error with
    | none => exact .ok { hrest with sink := rfl }
    | some error => exact .error { hrest.toReflects with sink := rfl }

/-- The script goes on elsewhere. -/
theorem Holds.setIp (h : S.Holds ip vars σ ds m) (ip' : Nat) :
    Exec.setIp ip' m = .ok () { m with frames := #[⟨S.closure, S.chunk, ip', 0⟩] } := by
  show EStateM.Result.ok () { m with frames := m.frames.modify _ _ } = _
  rw [h.frames]
  rfl

/-- The frame of the script is read. -/
theorem Holds.frame (h : S.Holds ip vars σ ds m) :
    Exec.frame m = .ok ⟨S.closure, S.chunk, ip, 0⟩ m := by
  rw [Exec.frame, h.back]

/-- The control goes forward. -/
theorem Holds.skip (h : S.Holds ip vars σ ds m) (distance : Nat) : ∃ m',
    Exec.skip distance m = .ok () m' ∧ S.Holds (ip + distance) vars σ ds m' := by
  refine ⟨_, ?_, h.goTo (ip + distance)⟩
  rw [Exec.skip, bind_eq h.frame]
  exact h.setIp _

/-- A jump forward goes on behind its distance. -/
theorem At.jump (h : S.At ip vars σ ds m) (hi : S.chunk.code[ip]? = some (Instr.jump k).encode) :
    S.Runs m (.ok () σ) fun _ σ' => S.At (ip + 1 + k.toNat) vars σ' ds :=
  h.step hi (fun heq => by cases heq) fun n _ hholds => by
    obtain ⟨m', hskip, hholds⟩ := hholds.skip k.toNat
    rw [show perform (.jump k) n = _ from hskip]
    exact .ok hholds

/-- The control goes forward if the operand on top of the stack is false. The operand stays. -/
theorem At.jumpIfFalse (h : S.At ip vars σ (d :: ds) m)
    (hi : S.chunk.code[ip]? = some (Instr.jumpIfFalse k).encode) :
    S.Runs m (.ok () σ) fun _ σ' =>
      S.At (if d.isFalsey then ip + 1 + k.toNat else ip + 1) vars σ' (d :: ds) :=
  h.step hi (fun heq => by cases heq) fun n _ hholds => by
    obtain ⟨below, v, hstack, hv, -⟩ := hholds.exists_top
    have hperform : perform (.jumpIfFalse k) n =
        (if v.isFalsey then Exec.skip k.toNat else pure () : Exec Unit) n := bind_eq (peek_top hstack)
    rw [hperform, hv.isFalsey]
    split
    · obtain ⟨m', hskip, hholds⟩ := hholds.skip k.toNat
      rw [hskip]
      exact .ok hholds
    · exact .ok hholds

/-- The control goes back. -/
theorem At.loop (h : S.At ip vars σ ds m) (hi : S.chunk.code[ip]? = some (Instr.loop k).encode)
    (hle : k.toNat ≤ ip + 1) :
    S.Runs m (.ok () σ) fun _ σ' => S.At (ip + 1 - k.toNat) vars σ' ds :=
  h.step hi (fun heq => by cases heq) fun n _ hholds => by
    have hback : perform (.loop k) n =
        .ok () { n with frames := #[⟨S.closure, S.chunk, ip + 1 - k.toNat, 0⟩] } := by
      show goBack k.toNat n = _
      rw [goBack, bind_eq hholds.frame, if_neg (Nat.not_lt.mpr hle)]
      exact hholds.setIp _
    rw [hback]
    exact .ok (hholds.goTo _)

end Script

end ScriptMachine
