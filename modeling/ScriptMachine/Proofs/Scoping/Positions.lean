import ScriptMachine.Proofs.Scoping.Sectioning

/-!
# Positions in a row of stretches

Control is where a stretch starts, or in the midst of one, behind some of its atoms. What the next
atom may be depends on the ones behind it: a method is added right after the closure that it is, and
an initializer returns right after its receiver was put on the stack.
-/

namespace ScriptMachine

open Compile (Access FunctionKind)

/-- A single entry is the first one and the last one. -/
theorem append_cons_eq_singleton {α : Type} {x y : α} {xs ys : List α} (h : [x] = xs ++ y :: ys) :
    xs = [] ∧ x = y ∧ ys = [] := by
  cases xs <;> simp_all

/-! ### Heights inside a stretch -/

namespace Atoms

/-- The height after an instruction with the words that belong to it. -/
def rise (n : Nat) (atom : List UInt32) : Nat :=
  match atom.head?.bind Instr.decode? with
  | some i => n - i.operands + i.results
  | none => n

/-- The height after some atoms. -/
def climb (n : Nat) (atoms : Atoms) : Nat := atoms.foldl rise n

/-- An instruction takes its operands and leaves its results. -/
@[simp] theorem rise_instr (n : Nat) (i : Instr) (ws : List UInt32) :
    rise n (i.encode :: ws) = n - i.operands + i.results := by
  simp [rise, Instr.decode?_encode]

/-- No instruction leaves the height. -/
@[simp] theorem climb_nil (n : Nat) : climb n [] = n := rfl

/-- Instructions change the height one after the other. -/
@[simp] theorem climb_cons (n : Nat) (atom : List UInt32) (atoms : Atoms) :
    climb n (atom :: atoms) = climb (rise n atom) atoms := rfl

/-- Instructions in sequence change the height in sequence. -/
@[simp] theorem climb_append (n : Nat) (a b : Atoms) : climb n (a ++ b) = climb (climb n a) b :=
  List.foldl_append

/-- What is behind control after an atom of a stretch with the atoms `left` ahead: all up to it, or
nothing of the next stretch. -/
def behind (done : Atoms) (atom : List UInt32) : (left : Atoms) → Atoms
  | [] => []
  | _ :: _ => done ++ [atom]

end Atoms

open Atoms

/-- The words of a closure start with the instruction that makes it. -/
theorem Function.Codes.exists_closure {B : Body} {scope scope' : Scope} {kind : FunctionKind}
    {f : Function} {ws : List UInt32} (h : f.Codes B scope kind ws scope') :
    ∃ k captures, ws = (Instr.closure k).encode :: captures := by
  cases h with
  | mk => exact ⟨_, _, rfl⟩

/-- The words of a closure raise the stack by one. -/
theorem Function.Codes.rise {B : Body} {scope scope' : Scope} {kind : FunctionKind} {f : Function}
    {ws : List UInt32} (h : f.Codes B scope kind ws scope') (n : Nat) : rise n ws = n + 1 := by
  obtain ⟨k, captures, rfl⟩ := h.exists_closure
  rw [rise_instr]
  rfl

/-! ### Inside a class declaration -/

/-- The instructions of one word that class declarations have, but for the additions of methods. -/
inductive Instr.Declares : Instr → Prop
  | class_ (k : UInt16) : Declares (.class_ k)
  | define (k : UInt16) : Declares (.defineGlobal k)
  | get (a : Access) : Declares a.get
  | inherit : Declares .inherit
  | pop : Declares .pop

/-- Such an instruction takes values from the stack and leaves values there. -/
theorem Instr.Declares.isStraight {i : Instr} (h : i.Declares) : i.isStraight = true := by
  cases h with
  | get a => cases a <;> rfl
  | _ => rfl

namespace Body

variable {B : Body} {scope scope' : Scope} {n m o : Nat} {S : Nat → Nat → Prop}
  {name : String} {parent : Option String} {methods : List Function}
  {atom : List UInt32} {before done left a b : Atoms}

/-- An atom that may stand in the midst of a stretch behind the atoms `done`. -/
inductive Inner (B : Body) (done : Atoms) : List UInt32 → Prop
  | closure {scope scope' : Scope} {kind : FunctionKind} {f : Function} {ws : List UInt32}
      (codes : f.Codes B scope kind ws scope') (rooted : scope.Rooted)
      (proper : ProperNames f.tokens) : Inner B done ws
  | instr {i : Instr} (declares : i.Declares) : Inner B done [i.encode]
  | method {scope scope' : Scope} {f : Function} {k : UInt16} {before : Atoms} {v : List UInt32}
      (names : B.Names k f.name) (codes : f.Codes B scope (methodKind f.name) v scope')
      (rooted : scope.Rooted) (proper : ProperNames f.tokens) (behind : done = before ++ [v]) :
      Inner B done [(Instr.method k).encode]

/-- More atoms may be behind. -/
theorem Inner.behind (h : B.Inner done atom) (before : Atoms) : B.Inner (before ++ done) atom := by
  cases h with
  | closure codes rooted proper => exact .closure codes rooted proper
  | instr declares => exact .instr declares
  | method names codes rooted proper behind =>
    exact .method names codes rooted proper (by rw [behind, List.append_assoc])

/-- Each of some atoms may stand behind the ones before it. -/
def AllInner (B : Body) (atoms : Atoms) : Prop :=
  ∀ done atom left, atoms = done ++ atom :: left → B.Inner done atom

/-- No instruction is an inner one of no class. -/
theorem allInner_nil : B.AllInner [] := fun done atom left h => by simp at h

/-- Instructions in sequence are inner ones if both parts are. -/
theorem AllInner.append (ha : B.AllInner a) (hb : B.AllInner b) : B.AllInner (a ++ b) := by
  intro done atom left h
  rcases List.append_eq_append_iff.mp h with ⟨mid, rfl, hmid⟩ | ⟨mid, hmid, hleft⟩
  · exact (hb _ _ _ hmid).behind a
  · cases mid with
    | nil =>
      rw [List.nil_append] at hleft
      rw [List.append_nil] at hmid
      subst hmid
      simpa using (hb [] _ _ hleft.symm).behind a
    | cons x mid =>
      rw [List.cons_append, List.cons.injEq] at hleft
      obtain ⟨rfl, -⟩ := hleft
      exact ha _ _ _ hmid

/-- Instructions of one word may stand in any order. -/
theorem allInner_atoms {is : List Instr} (h : ∀ i ∈ is, i.Declares) :
    B.AllInner (Instr.atoms is) := by
  intro done atom left hsplit
  have hmem : atom ∈ Instr.atoms is := hsplit ▸ List.mem_append_right _ List.mem_cons_self
  obtain ⟨i, hi, rfl⟩ := List.mem_map.mp hmem
  exact .instr (h i hi)

/-- A method is added behind its closure. -/
theorem Methods.allInner (h : B.Methods scope methods a scope')
    (hp : ProperNames (Function.listTokens methods)) : B.AllInner a := by
  induction h with
  | nil => exact allInner_nil
  | @cons scope _ _ f fs k v rest names first rooted _ ih =>
    simp [Function.listTokens] at hp
    intro done atom left hsplit
    cases done with
    | nil =>
      obtain ⟨rfl, -⟩ := List.cons.inj hsplit
      exact .closure first rooted hp.1
    | cons v' done =>
      obtain ⟨rfl, hrest⟩ := List.cons.inj hsplit
      cases done with
      | nil =>
        obtain ⟨rfl, -⟩ := List.cons.inj hrest
        exact .method names first rooted hp.1 (List.nil_append [v]).symm
      | cons added done =>
        obtain ⟨-, hrest⟩ := List.cons.inj hrest
        exact (ih hp.2 done atom left hrest).behind [v, added]

/-- Keeping a class is part of declaring it. -/
theorem ClassVariable.declares {is : List Instr} {access : Access}
    (h : B.ClassVariable n name is access) : ∀ i ∈ is, i.Declares := by
  cases h with
  | local_ => exact fun i hi => by cases hi
  | global => exact List.forall_mem_singleton.mpr (.define _)

/-- Inheriting is part of declaring a class. -/
theorem Inheriting.declares {define is : List Instr}
    (h : B.Inheriting scope n name define parent is) : ∀ i ∈ is, i.Declares := by
  cases h with
  | none => exact fun i hi => by cases hi
  | some =>
    intro i hi
    simp only [List.mem_cons, List.not_mem_nil, or_false] at hi
    rcases hi with rfl | rfl | rfl
    · exact .get _
    · exact .get _
    · exact .inherit

/-- The atoms of a class declaration. -/
theorem ClassCode.allInner (h : B.ClassCode n name parent methods a m)
    (hp : ProperNames (Function.listTokens methods)) : B.AllInner a := by
  cases h with
  | @mk _ _ _ k access define inherit atoms names inherits own codes =>
    refine ((allInner_atoms fun i hi => ?_).append (codes.allInner hp)).append
      (allInner_atoms (List.forall_mem_singleton.mpr .pop))
    rw [List.cons_append, List.cons_append, List.mem_cons, List.append_assoc, List.mem_append,
      List.mem_append, List.mem_singleton] at hi
    rcases hi with rfl | hi | hi | rfl
    · exact .class_ k
    · exact own.declares i hi
    · exact inherits.declares i hi
    · exact .get access

/-- Methods leave the stack as high as it is. -/
theorem Methods.climb (h : B.Methods scope methods a scope') (k : Nat) :
    climb (k + 1) a = k + 1 := by
  induction h with
  | nil => rfl
  | cons names first rooted others ih =>
    rw [climb_cons, climb_cons, first.rise, rise_instr]
    exact ih

/-- A class declaration leads to the height that is said of it. -/
theorem ClassCode.climb (h : B.ClassCode n name parent methods a m) : climb n a = m := by
  cases h with
  | @mk _ _ _ k access define inherit atoms names inherits own codes =>
    have hget (k : Nat) (access : Access) : rise k [access.get.encode] = k + 1 := by
      rw [rise_instr, access.get_effect.2.1, access.get_effect.2.2, Nat.sub_zero]
    have hdefine : Atoms.climb (n + 1) (Instr.atoms define) = n + (1 - define.length) := by
      cases own <;> simp [Instr.atoms, Instr.operands, Instr.results]
    have hinherit (k : Nat) :
        Atoms.climb k (Instr.atoms inherit) = k + parent.toList.length := by
      cases inherits with
      | none => rfl
      | some parentFound own =>
        simp only [Instr.atoms, List.map_cons, List.map_nil, climb_cons, climb_nil, hget, rise_instr,
          Instr.operands, Instr.results, Option.toList_some, List.length_singleton]
        omega
    have hclass : rise n [(Instr.class_ k).encode] = n + 1 := by rw [rise_instr]; rfl
    have hlast (is js : List Instr) : Instr.atoms (is ++ js) = Instr.atoms is ++ Instr.atoms js :=
      List.map_append
    have hone (i : Instr) (is : List Instr) :
        Instr.atoms (i :: is) = [i.encode] :: Instr.atoms is := rfl
    have hpop (k : Nat) : Atoms.climb (k + 1) (Instr.atoms [.pop]) = k := by
      simp [Instr.atoms, Instr.operands, Instr.results]
    rw [climb_append, climb_append, hlast, hlast, climb_append, climb_append, hone, climb_cons, hclass,
      hdefine, hinherit, hone, climb_cons, hget]
    show Atoms.climb (Atoms.climb (_ + 1) atoms) _ = _
    rw [codes.climb, hpop]

/-! ### The next atom -/

/-- What the atom may be behind the atoms `done` of a stretch at the offset `o`, which `n` slots
are needed for and which leads only where `S` allows. -/
inductive Next (B : Body) (o n : Nat) (S : Nat → Nat → Prop) :
    Atoms → List UInt32 → Atoms → Prop
  | instr {i : Instr} (permits : B.Permits i)
      (goes : i.Goes o fun t => S t (n - i.operands + i.results)) : Next B o n S [] [i.encode] []
  | inner {done : Atoms} {atom : List UInt32} {left : Atoms} (inner : B.Inner done atom)
      (next : left = [] → S (o + (done ++ [atom]).flatten.length) (Atoms.climb n (done ++ [atom]))) :
      Next B o n S done atom left
  | answer (kind : B.kind = .initializer) :
      Next B o n S [[(Instr.getLocal 0).encode]] [Instr.return_.encode] []

/-- Inside of a stretch control gets from one instruction to the next, or where it may leave. -/
theorem Stretch.next (h : B.Stretch o n S (done ++ atom :: left)) : B.Next o n S done atom left := by
  generalize hs : done ++ atom :: left = s at h
  cases h with
  | instr permits goes =>
    obtain ⟨rfl, rfl, rfl⟩ := append_cons_eq_singleton hs.symm
    exact .instr permits goes
  | closure codes rooted proper next =>
    obtain ⟨rfl, rfl, rfl⟩ := append_cons_eq_singleton hs.symm
    refine .inner (.closure codes rooted proper) fun _ => ?_
    simpa [codes.rise] using next
  | answer kind =>
    cases done with
    | nil =>
      obtain ⟨rfl, rfl⟩ := List.cons.inj hs
      exact .inner (.instr (.get (.local_ 0))) fun hnil => by cases hnil
    | cons first done =>
      obtain ⟨rfl, hrest⟩ := List.cons.inj hs
      obtain ⟨rfl, rfl, rfl⟩ := append_cons_eq_singleton hrest.symm
      exact .answer kind
  | class_ code proper next =>
    refine .inner (code.allInner proper done atom left hs.symm) ?_
    rintro rfl
    rw [hs, code.climb]
    exact next

/-- A stretch has an atom. -/
theorem Stretch.ne_nil {s : Atoms} (h : B.Stretch o n S s) : s ≠ [] := by
  cases h with
  | class_ code =>
    cases code
    simp [Instr.atoms]
  | _ => simp [Instr.atoms]

end Body

/-! ### Positions -/

namespace Row

variable {B : Body} {row a b : Row} {ip k n m : Nat} {done left : Atoms} {atom : List UInt32}
  {w : UInt32}

/-- Control at the offset `ip` is behind the atoms `done` of a stretch, where the stack has to have
the given height. -/
inductive Stands (row : Row) (ip : Nat) : Nat → Atoms → Prop
  | mark {k : Nat} (mark : row.Mark 0 ip k) : Stands row ip k []
  | midst {before after : Row} {n : Nat} {done left : Atoms}
      (split : row = before ++ (n, done ++ left) :: after) (begun : done ≠ []) (goesOn : left ≠ [])
      (offset : ip = before.words.length + done.flatten.length) : Stands row ip (climb n done) done

/-- Control that is at a word is at the next atom of a stretch. -/
structure At (B : Body) (row : Row) (ip n : Nat) (done : Atoms) (atom : List UInt32)
    (left : Atoms) : Prop where
  split : ∃ before after, row = before ++ (n, done ++ atom :: left) :: after ∧
    ip = before.words.length + done.flatten.length
  next : ∃ o, ip = o + done.flatten.length ∧ B.Next o n (row.Mark 0) done atom left

/-- Control behind some atoms of a stretch is at the next one. -/
theorem at_of_split {before after : Row} {atom : List UInt32} {left : Atoms}
    (hl : Laid B (row.Mark 0) 0 row) (split : row = before ++ (n, done ++ atom :: left) :: after)
    (offset : ip = before.words.length + done.flatten.length) : row.At B ip n done atom left := by
  refine ⟨⟨before, after, split, offset⟩, before.words.length, offset, ?_⟩
  have hstretch := hl
  rw [split, laid_append, Laid, Nat.zero_add, ← split] at hstretch
  exact hstretch.2.1.next

/-- Control in front of the end of a part of a row is in a stretch of that part. -/
theorem At.split_left (h : (a ++ b).At B ip n done atom left) (hip : ip < a.words.length) :
    ∃ before after, a = before ++ (n, done ++ atom :: left) :: after ∧
      ip = before.words.length + done.flatten.length := by
  obtain ⟨before, after, split, offset⟩ := h.split
  rcases List.append_eq_append_iff.mp split with ⟨mid, rfl, -⟩ | ⟨mid, rfl, hmid⟩
  · rw [words_append, List.length_append] at offset
    omega
  · cases mid with
    | nil =>
      rw [List.append_nil] at hip
      omega
    | cons s mid =>
      rw [List.cons_append, List.cons.injEq] at hmid
      obtain ⟨rfl, -⟩ := hmid
      exact ⟨before, mid, rfl, offset⟩

/-- Control at the end of a part of a row is at the start of the next stretch. -/
theorem At.split_end {i : Instr} (h : (a ++ (m, [[i.encode]]) :: b).At B ip n done atom left)
    (hip : ip = a.words.length) (hatom : atom ≠ []) : n = m ∧ done = [] ∧ atom = [i.encode] := by
  obtain ⟨before, after, split, offset⟩ := h.split
  have hone (heq : (m, [[i.encode]]) = (n, done ++ atom :: left)) :
      n = m ∧ done = [] ∧ atom = [i.encode] := by
    obtain ⟨hn, hs⟩ := Prod.mk.inj heq
    obtain ⟨hdone, hatom, -⟩ := append_cons_eq_singleton hs
    exact ⟨hn.symm, hdone, hatom.symm⟩
  rcases List.append_eq_append_iff.mp split with ⟨mid, rfl, hmid⟩ | ⟨mid, rfl, hmid⟩
  · cases mid with
    | nil => exact hone (List.cons.inj hmid).1
    | cons s mid =>
      rw [List.cons_append, List.cons.injEq] at hmid
      obtain ⟨rfl, -⟩ := hmid
      rw [words_append, List.length_append, words_cons] at offset
      simp at offset
      omega
  · cases mid with
    | nil => exact hone (List.cons.inj hmid).1.symm
    | cons s mid =>
      rw [List.cons_append, List.cons.injEq] at hmid
      obtain ⟨rfl, -⟩ := hmid
      rw [words_append, List.length_append, words_cons] at hip
      simp only [List.flatten_append, List.flatten_cons, List.length_append] at hip
      have := List.length_pos_iff.mpr hatom
      omega

/-- Where control stands within a row it is at an instruction of a stretch. -/
theorem Stands.at (hs : row.Stands ip k done) (hl : Laid B (row.Mark 0) 0 row)
    (hword : row.words[ip]? = some w) : ∃ n atom left, k = climb n done ∧
      row.At B ip n done atom left := by
  cases hs with
  | mark mark =>
    obtain ⟨before, after, rfl, rfl, hk⟩ := mark
    cases after with
    | nil =>
      rw [List.append_nil, List.getElem?_eq_none (Nat.le_refl _)] at hword
      cases hword
    | cons s after =>
      obtain ⟨n, s⟩ := s
      cases s with
      | nil =>
        exact absurd rfl (laid_append.mp hl).2.1.ne_nil
      | cons atom left => exact ⟨n, atom, left, hk.symm, at_of_split hl rfl rfl⟩
  | @midst before after n _ left split begun goesOn offset =>
    cases left with
    | nil => exact absurd rfl goesOn
    | cons atom left => exact ⟨n, atom, left, rfl, at_of_split hl split offset⟩

/-- Behind an atom in the midst of a stretch control is at the next one, or where the stretch
leads. -/
theorem At.behind {o : Nat} {atom : List UInt32} {left : Atoms} (h : row.At B ip n done atom left)
    (hip : ip = o + done.flatten.length) (next : left = [] →
      row.Mark 0 (o + (done ++ [atom]).flatten.length) (climb n (done ++ [atom]))) :
    row.Stands (ip + atom.length) (climb n (done ++ [atom])) (done.behind atom left) := by
  have hlength : (done ++ [atom]).flatten.length = done.flatten.length + atom.length := by simp
  cases left with
  | nil =>
    refine .mark ?_
    rw [hip, Nat.add_assoc, ← hlength]
    exact next rfl
  | cons a left =>
    obtain ⟨before, after, split, offset⟩ := h.split
    have hsplit : row = before ++ (n, (done ++ [atom]) ++ a :: left) :: after := by
      simpa using split
    refine .midst hsplit (by simp) (by simp) ?_
    rw [offset, hlength, Nat.add_assoc]

/-- The words ahead of control are those of the next atom. -/
theorem At.ahead {atom : List UInt32} {left : Atoms} (h : row.At B ip n done atom left) :
    atom <+: row.words.drop ip := by
  obtain ⟨before, after, rfl, rfl⟩ := h.split
  have hsplit : words (before ++ (n, done ++ atom :: left) :: after) =
      (before.words ++ done.flatten) ++ (atom ++ (left.flatten ++ words after)) := by simp
  rw [hsplit, ← List.length_append, List.drop_left]
  exact List.prefix_append _ _

/-- The word that control is at is the first one of the next atom. -/
theorem At.word {atom : List UInt32} {left : Atoms} (h : row.At B ip n done (w :: atom) left) :
    row.words[ip]? = some w := by
  obtain ⟨tail, htail⟩ := h.ahead
  rw [← List.head?_drop, ← htail]
  rfl

end Row

end ScriptMachine
