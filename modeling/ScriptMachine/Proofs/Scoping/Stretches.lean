import ScriptMachine.Proofs.Scoping.Codes

/-!
# Code as a row of stretches

The code of a function is a row of stretches that control enters at their start only. Most of them
are one instruction; the words of a closure belong together, the return of an initializer to the
instruction that puts the receiver on the stack, and a class declaration is one stretch as a whole.
Every jump lands where a stretch starts, and there the stack is as high as the stretch needs it. So
whatever an instruction inside of a stretch finds was made by the instructions before it.
-/

namespace ScriptMachine

open Compile (Access FunctionKind)

/-! ### Slot zero -/

/-- A name that a variable of a source may have. -/
structure Proper (name : String) : Prop where
  nonempty : name ≠ ""
  notThis : name ≠ "this"
  notSuper : name ≠ "super"

/-- Every name among some tokens may be the one of a variable. -/
def ProperNames (ts : List Token) : Prop := ∀ name, Token.name name ∈ ts → Proper name

/-- No token has no improper name. -/
@[simp] theorem properNames_nil : ProperNames [] := fun _ h => by cases h

/-- Names among tokens are those of both parts. -/
@[simp] theorem properNames_append {ts us : List Token} :
    ProperNames (ts ++ us) ↔ ProperNames ts ∧ ProperNames us := by
  simp only [ProperNames, List.mem_append, or_imp, forall_and]

/-- A symbol is no name. -/
@[simp] theorem properNames_symbol {symbol : Symbol} {ts : List Token} :
    ProperNames (.symbol symbol :: ts) ↔ ProperNames ts := by
  simp [ProperNames]

/-- A reserved word is no name. -/
@[simp] theorem properNames_keyword {keyword : Keyword} {ts : List Token} :
    ProperNames (.keyword keyword :: ts) ↔ ProperNames ts := by
  simp [ProperNames]

/-- A name is one of those among the tokens it starts. -/
@[simp] theorem properNames_name {name : String} {ts : List Token} :
    ProperNames (.name name :: ts) ↔ Proper name ∧ ProperNames ts := by
  simp [ProperNames]

/-- The lowest local is the one of slot zero, which no variable of a source is. -/
def Scope.Rooted (scope : Scope) : Prop :=
  ∃ above root, scope = above ++ [root] ∧ ∀ name, Proper name → root.name ≠ name

/-- The capture `j` leads outward to slot zero of a function. -/
inductive LeadsToCallee : List Capture → List Level → Nat → Prop
  | here {captures : List Capture} {levels : List Level} {j : Nat}
      (capture : captures[j]? = some ⟨true, 0⟩) : LeadsToCallee captures levels j
  | further {captures : List Capture} {level : Level} {levels : List Level} {j : Nat} {i : UInt8}
      (capture : captures[j]? = some ⟨false, i⟩)
      (outer : LeadsToCallee level.captures levels i.toNat) :
      LeadsToCallee captures (level :: levels) j

namespace Scope

variable {scope : Scope} {name : String}

/-- A function starts with the local of slot zero. -/
theorem rooted_start (kind : FunctionKind) (params : List String) : (start kind params).Rooted := by
  refine ⟨_, _, rfl, fun name hname heq => ?_⟩
  cases kind with
  | method | initializer => exact hname.notThis heq.symm
  | script | function => exact hname.nonempty heq.symm

/-- A local on top leaves slot zero the lowest. -/
theorem Rooted.cons (h : scope.Rooted) (b : Binding) : Rooted (b :: scope) := by
  obtain ⟨above, root, rfl, hroot⟩ := h
  exact ⟨b :: above, root, rfl, hroot⟩

/-- What is rooted has at least slot zero. -/
theorem Rooted.length_pos (h : scope.Rooted) : 0 < scope.length := by
  obtain ⟨above, root, rfl, -⟩ := h
  simp

/-- Marks do not change what slot zero is. -/
theorem Rooted.congr {scope' : Scope} (h : scope.Rooted)
    (hnames : scope'.map Binding.name = scope.map Binding.name) : scope'.Rooted := by
  obtain ⟨above, root, rfl, hroot⟩ := h
  rw [List.map_append, List.map_eq_append_iff] at hnames
  obtain ⟨above', last, rfl, -, hlast⟩ := hnames
  obtain ⟨root', rest, rfl, hname, hrest⟩ := List.map_eq_cons_iff.mp hlast
  obtain rfl : rest = [] := List.map_eq_nil_iff.mp hrest
  exact ⟨above', root', rfl, hname ▸ hroot⟩

/-- Marking locals as captured leaves their names. -/
theorem map_name_mark (captures : List Capture) (scope : Scope) :
    (scope.mark captures).map Binding.name = scope.map Binding.name := by
  induction scope with
  | nil => rfl
  | cons b rest ih => simp [mark, ih]

/-- Marking locals as captured leaves slot zero the lowest. -/
theorem Rooted.mark (h : scope.Rooted) (captures : List Capture) : (scope.mark captures).Rooted :=
  h.congr (map_name_mark captures scope)

/-- No variable has the name of slot zero. -/
theorem Rooted.ne_of_singleton {root : Binding} (h : Rooted [root]) (hname : Proper name) :
    root.name ≠ name := by
  obtain ⟨above, last, heq, hlast⟩ := h
  obtain rfl : root = last := by
    have := congrArg List.getLast? heq
    simpa using this
  exact hlast name hname

/-- The end of an inner scope leaves slot zero. -/
theorem Rooted.keep {n : Nat} (h : scope.Rooted) (hn : 0 < n) : (scope.keep n).Rooted := by
  obtain ⟨above, root, rfl, hroot⟩ := h
  refine ⟨above.drop ((above ++ [root]).length - n), root, ?_, hroot⟩
  rw [Scope.keep, List.drop_append_of_le_length (by simp; omega)]

/-- No variable of a source is in slot zero. -/
theorem Rooted.declares_pos {slot : Nat} (h : scope.Rooted) (hname : Proper name)
    (hd : scope.Declares name slot) : 0 < slot := by
  obtain ⟨above, root, rfl, hroot⟩ := h
  induction above with
  | nil =>
    cases hd with
    | here => exact absurd rfl (hroot _ hname)
    | behind _ behind => cases behind
  | cons b above ih =>
    cases hd with
    | here => simp
    | behind _ behind => exact ih behind

end Scope

/-- The capture of a variable of a source leads to no callee. -/
theorem Reaches.not_leadsToCallee {name : String} {captures : List Capture} {levels : List Level}
    {i : Nat} (h : Reaches name captures levels i) (hname : Proper name)
    (hlevels : ∀ level ∈ levels, level.scope.Rooted) : ¬ LeadsToCallee captures levels i := by
  induction h with
  | @local_ _ level _ _ slot capture declares =>
    intro hc
    have hpos := (hlevels level List.mem_cons_self).declares_pos hname declares
    cases hc with
    | here capture' =>
      obtain rfl : slot = 0 := (Capture.mk.inj (Option.some.inj (capture.symm.trans capture'))).2
      exact absurd hpos (Nat.lt_irrefl 0)
    | further capture' => cases capture.symm.trans capture'
  | upvalue capture _ _ ih =>
    intro hc
    cases hc with
    | here capture' => cases capture.symm.trans capture'
    | further capture' outer =>
      obtain rfl := (Capture.mk.inj (Option.some.inj (capture.symm.trans capture'))).2
      exact ih (fun level hlevel => hlevels level (List.mem_cons_of_mem _ hlevel)) outer

/-! ### Class declarations -/

/-- Instructions in their order, each with the words that belong to it. -/
abbrev Atoms := List (List UInt32)

/-- Instructions of one word. -/
def Instr.atoms (is : List Instr) : Atoms := is.map fun i => [i.encode]

/-- Instructions of one word each are their words. -/
@[simp] theorem Instr.flatten_atoms (is : List Instr) :
    (Instr.atoms is).flatten = is.map Instr.encode := by
  induction is with
  | nil => rfl
  | cons i is ih => simpa [Instr.atoms] using ih

namespace Body

variable {B : Body}

/-- Where a class is kept that was on top of `n` slots: in the next slot, or in a global that is
defined first. -/
inductive ClassVariable (B : Body) (n : Nat) (name : String) : List Instr → Access → Prop
  | local_ {slot : UInt8} (top : slot.toNat = n) : ClassVariable B n name [] (.local_ slot)
  | global {k k' : UInt16} (names : B.Names k name) (names' : B.Names k' name) :
      ClassVariable B n name [.defineGlobal k] (.global k')

/-- The instructions that give a class the methods of its superclass. -/
inductive Inheriting (B : Body) (scope : Scope) (n : Nat) (name : String) (define : List Instr) :
    Option String → List Instr → Prop
  | none : Inheriting B scope n name define none []
  | some {parent : String} {a b : Access} (parentFound : B.Finds scope parent a)
      (own : B.ClassVariable n name define b) :
      Inheriting B scope n name define (some parent) [a.get, b.get, .inherit]

/-- The instructions that give methods to the class on top of the stack: each makes a closure of
its function, and the next one adds it. -/
inductive Methods (B : Body) : Scope → List Function → Atoms → Scope → Prop
  | nil {scope : Scope} : Methods B scope [] [] scope
  | cons {scope scope₁ scope' : Scope} {f : Function} {fs : List Function} {k : UInt16}
      {v : List UInt32} {rest : Atoms} (names : B.Names k f.name)
      (first : f.Codes B scope (methodKind f.name) v scope₁) (rooted : scope.Rooted)
      (others : Methods B scope₁ fs rest scope') :
      Methods B scope (f :: fs) (v :: [(Instr.method k).encode] :: rest) scope'

/-- The instructions of a class declaration with `n` slots below. -/
inductive ClassCode (B : Body) (n : Nat) (name : String) (parent : Option String)
    (methods : List Function) : Atoms → Nat → Prop
  | mk {scope scope₁ scope₂ : Scope} {k : UInt16} {a : Access} {define inherit : List Instr}
      {atoms : Atoms} (names : B.Names k name)
      (inherits : B.Inheriting scope n name define parent inherit)
      (own : B.ClassVariable n name define a) (codes : B.Methods scope₁ methods atoms scope₂) :
      ClassCode B n name parent methods
        (Instr.atoms (.class_ k :: define ++ inherit ++ [a.get]) ++ atoms ++ Instr.atoms [.pop])
        (n + (1 - define.length) + parent.toList.length)

/-- What code may do by an instruction of its own: closures and classes are made by stretches, an
initializer returns its receiver, and nothing is assigned to slot zero. -/
def Permits (B : Body) : Instr → Prop
  | .closure _ | .class_ _ | .inherit | .method _ => False
  | .return_ => B.kind ≠ .initializer
  | .setLocal j => j ≠ 0
  | .setUpvalue j => ¬ LeadsToCallee B.captures B.outer j.toNat
  | _ => True

/-- Reading a variable is permitted. -/
theorem permits_get (a : Access) : B.Permits a.get := by
  cases a <;> exact trivial

/-- A variable of a source may be assigned. -/
theorem permits_set {scope : Scope} {name : String} {a : Access} (h : B.Finds scope name a)
    (hname : Proper name) (hscope : scope.Rooted) (hlevels : ∀ level ∈ B.outer, level.scope.Rooted) :
    B.Permits a.set := by
  cases h with
  | @local_ slot declares =>
    have hpos := hscope.declares_pos hname declares
    intro hzero
    have := congrArg UInt16.toNat hzero
    rw [UInt8.toNat_toUInt16] at this
    exact absurd this (Nat.ne_of_gt hpos)
  | @upvalue i lacks reaches =>
    have hno := reaches.not_leadsToCallee hname hlevels
    rwa [← UInt8.toNat_toUInt16] at hno
  | global => exact trivial

end Body

/-! ### Stretches -/

/-- Control gets from an instruction of one word at the offset `o` only to where `S` allows. -/
def Instr.Goes (i : Instr) (o : Nat) (S : Nat → Prop) : Prop :=
  match i with
  | .jump d => S (o + 1 + d.toNat)
  | .jumpIfFalse d => S (o + 1) ∧ S (o + 1 + d.toNat)
  | .loop d => ∃ t, t + d.toNat = o + 1 ∧ S t
  | .return_ => True
  | _ => S (o + 1)

/-- A straight instruction goes to the next word. -/
theorem Instr.goes_of_isStraight {i : Instr} (hi : i.isStraight = true) {o : Nat} {S : Nat → Prop} :
    i.Goes o S ↔ S (o + 1) := by
  cases i <;> first | exact Iff.rfl | cases hi

/-- Where an instruction goes moves with it. -/
theorem Instr.Goes.shift {i : Instr} {o c : Nat} {S S' : Nat → Prop} (h : i.Goes o S)
    (hS : ∀ t, S t → S' (c + t)) : i.Goes (c + o) S' := by
  cases i with
  | jump d => exact cast (by congr 1; omega) (hS _ h)
  | jumpIfFalse d => exact ⟨hS _ h.1, cast (by congr 1; omega) (hS _ h.2)⟩
  | loop d =>
    obtain ⟨t, ht, hst⟩ := h
    exact ⟨c + t, by omega, hS t hst⟩
  | return_ => trivial
  | _ => exact hS _ h

namespace Body

/-- The instructions at the offset `o` are a stretch that `n` slots are needed for, and control gets
from it only where `S` allows, to the height that `S` allows there. -/
inductive Stretch (B : Body) (o n : Nat) (S : Nat → Nat → Prop) : Atoms → Prop
  | instr {i : Instr} (permits : B.Permits i)
      (goes : i.Goes o fun t => S t (n - i.operands + i.results)) : Stretch B o n S [[i.encode]]
  | closure {scope scope' : Scope} {kind : FunctionKind} {f : Function} {ws : List UInt32}
      (codes : f.Codes B scope kind ws scope') (rooted : scope.Rooted)
      (proper : ProperNames f.tokens)
      (next : S (o + ws.length) (n + 1)) : Stretch B o n S [ws]
  | answer (kind : B.kind = .initializer) : Stretch B o n S (Instr.atoms [.getLocal 0, .return_])
  | class_ {name : String} {parent : Option String} {methods : List Function} {atoms : Atoms}
      {m : Nat} (code : B.ClassCode n name parent methods atoms m)
      (proper : ProperNames (Function.listTokens methods))
      (next : S (o + atoms.flatten.length) m) : Stretch B o n S atoms

/-- Wherever a stretch stands, control gets from it to the same places. -/
theorem Stretch.shift {B : Body} {o n c : Nat} {S S' : Nat → Nat → Prop} {s : Atoms}
    (h : B.Stretch o n S s) (hS : ∀ t k, S t k → S' (c + t) k) : B.Stretch (c + o) n S' s := by
  cases h with
  | instr permits goes => exact .instr permits (goes.shift fun t => hS t _)
  | closure codes rooted proper next =>
    exact .closure codes rooted proper (Nat.add_assoc c o _ ▸ hS _ _ next)
  | answer kind => exact .answer kind
  | class_ code proper next => exact .class_ code proper (Nat.add_assoc c o _ ▸ hS _ _ next)

end Body

/-- Stretches in their order, each with the number of slots that it is entered with. -/
abbrev Row := List (Nat × Atoms)

namespace Row

variable {B : Body} {a b before after row : Row} {S S' : Nat → Nat → Prop} {o m k q n : Nat}

/-- The words of the stretches. -/
def words (row : Row) : List UInt32 := row.flatMap fun s => s.2.flatten

/-- No stretch has no words. -/
@[simp] theorem words_nil : words [] = [] := rfl

/-- The words of a row start with those of its first stretch. -/
@[simp] theorem words_cons (n : Nat) (s : Atoms) (rest : Row) :
    words ((n, s) :: rest) = s.flatten ++ words rest := rfl

/-- The words of rows in sequence are in sequence. -/
@[simp] theorem words_append (a b : Row) : words (a ++ b) = words a ++ words b :=
  List.flatMap_append

/-- The number of slots where a row starts that ends with `m` slots. -/
def height (m : Nat) : Row → Nat
  | [] => m
  | (n, _) :: _ => n

/-- A row starts at the height its first stretch needs, or where the next row does. -/
theorem height_append (a b : Row) : (a ++ b).height m = a.height (b.height m) := by
  cases a <;> rfl

/-- A stretch starts at the offset `q` with `k` slots, or the row ends there. -/
def Mark (row : Row) (m q k : Nat) : Prop :=
  ∃ before after, row = before ++ after ∧ before.words.length = q ∧ after.height m = k

/-- The marks of a part of a row are marks of the row. -/
theorem Mark.within (h : a.Mark k q n) (hk : after.height m = k) :
    (before ++ a ++ after).Mark m (before.words.length + q) n := by
  obtain ⟨pre, post, rfl, rfl, hpost⟩ := h
  refine ⟨before ++ pre, post ++ after, by simp, by simp, ?_⟩
  rw [height_append, hk, hpost]

/-- A mark of a row is not behind it. -/
theorem Mark.le (h : a.Mark m q k) : q ≤ a.words.length := by
  obtain ⟨before, after, rfl, rfl, -⟩ := h
  rw [words_append, List.length_append]
  exact Nat.le_add_right _ _

/-- From the offset `o` on the row consists of stretches that lead only where `S` allows. -/
def Laid (B : Body) (S : Nat → Nat → Prop) : Nat → Row → Prop
  | _, [] => True
  | o, (n, s) :: rest => B.Stretch o n S s ∧ Laid B S (o + s.flatten.length) rest

/-- Rows in sequence are laid if each is, the second one behind the words of the first. -/
theorem laid_append : Laid B S o (a ++ b) ↔ Laid B S o a ∧ Laid B S (o + a.words.length) b := by
  induction a generalizing o with
  | nil => simp [Laid]
  | cons s a ih =>
    obtain ⟨n, s⟩ := s
    simp only [List.cons_append, Laid, ih, words_cons, List.length_append, and_assoc, Nat.add_assoc]

/-- A row that is laid stays so where it is moved with its marks. -/
theorem Laid.shift {c : Nat} (h : Laid B S o row) (hS : ∀ t k, S t k → S' (c + t) k) :
    Laid B S' (c + o) row := by
  induction row generalizing o with
  | nil => trivial
  | cons s row ih =>
    obtain ⟨n, s⟩ := s
    exact ⟨h.1.shift hS, Nat.add_assoc c o _ ▸ ih h.2⟩

/-- A row that leads to its own marks does so inside of a longer one. -/
theorem Laid.within (h : Laid B (a.Mark k) 0 a) (before after : Row) (hk : after.height m = k) :
    Laid B ((before ++ a ++ after).Mark m) before.words.length a := by
  have hshift : Laid B ((before ++ a ++ after).Mark m) (before.words.length + 0) a :=
    h.shift fun t n hmark => hmark.within hk
  rwa [Nat.add_zero] at hshift

end Row

/-- Words are a row of stretches that is entered with `n` slots and left with `m`, and its jumps
land at its own marks. -/
def Body.Flows (B : Body) (n : Nat) (ws : List UInt32) (m : Nat) : Prop :=
  ∃ row : Row, row.words = ws ∧ row.height m = n ∧ Row.Laid B (row.Mark m) 0 row

namespace Body.Flows

open Row

variable {B : Body} {n m k : Nat} {v w : List UInt32}

/-- No words flow from a height to itself. -/
theorem nil : B.Flows n [] n := ⟨[], rfl, rfl, trivial⟩

/-- Words that flow one after the other flow as a whole. -/
theorem append (hv : B.Flows n v k) (hw : B.Flows k w m) : B.Flows n (v ++ w) m := by
  obtain ⟨a, rfl, hn, ha⟩ := hv
  obtain ⟨b, rfl, hk, hb⟩ := hw
  refine ⟨a ++ b, words_append a b, by rw [height_append, hk, hn], laid_append.mpr ⟨?_, ?_⟩⟩
  · simpa using ha.within [] b hk
  · simpa using hb.within a [] (m := m) rfl

/-- A stretch after which control goes on. -/
theorem stretch {s : Atoms} (h : ∀ S : Nat → Nat → Prop, S s.flatten.length m → B.Stretch 0 n S s) :
    B.Flows n s.flatten m :=
  ⟨[(n, s)], by simp, rfl, h _ ⟨[(n, s)], [], rfl, by simp, rfl⟩, trivial⟩

/-- An instruction of one word after which control goes on, and what follows it. -/
theorem cons (i : Instr) (hi : i.isStraight = true) (hp : B.Permits i)
    (hw : B.Flows (n - i.operands + i.results) w m) : B.Flows n (i.encode :: w) m := by
  refine append (v := [i.encode]) ?_ hw
  exact stretch (s := [[i.encode]]) fun S hS =>
    .instr hp ((Instr.goes_of_isStraight hi).mpr hS)

/-- The words of a closure. -/
theorem closure {scope scope' : Scope} {kind : FunctionKind} {f : Function}
    (codes : f.Codes B scope kind w scope') (rooted : scope.Rooted)
    (proper : ProperNames f.tokens) : B.Flows n w (n + 1) := by
  have := stretch (B := B) (n := n) (m := n + 1) (s := [w]) fun S hS =>
    .closure codes rooted proper (by simpa using hS)
  simpa using this

/-- Control does not go on after a return. -/
theorem return_ (hkind : B.kind ≠ .initializer) : B.Flows n [Instr.return_.encode] m :=
  stretch (s := [[Instr.return_.encode]]) fun _ _ => .instr hkind trivial

/-- The return of a function without a value. -/
theorem finalReturn : B.Flows n (FunctionKind.finalReturn B.kind) m := by
  by_cases hkind : B.kind = .initializer
  · rw [FunctionKind.finalReturn, if_pos hkind]
    exact stretch (s := Instr.atoms [.getLocal 0, .return_]) fun _ _ => .answer hkind
  · rw [FunctionKind.finalReturn, if_neg hkind]
    exact cons .null rfl trivial (return_ hkind)

/-- Code that control may skip. -/
theorem skip {d : UInt16} (hv : B.Flows n v n) (hpos : 0 < n) (hd : d.toNat = v.length) :
    B.Flows n ((Instr.jumpIfFalse d).encode :: v) n := by
  obtain ⟨a, rfl, hn, ha⟩ := hv
  have hheight : n - (Instr.jumpIfFalse d).operands + (Instr.jumpIfFalse d).results = n :=
    Nat.sub_add_cancel hpos
  refine ⟨(n, [[(Instr.jumpIfFalse d).encode]]) :: a, by simp, rfl, .instr trivial ?_, ?_⟩
  · rw [hheight]
    refine ⟨?_, ?_⟩
    · exact ⟨[(n, [[(Instr.jumpIfFalse d).encode]])], a, rfl, rfl, hn⟩
    · exact ⟨(n, [[(Instr.jumpIfFalse d).encode]]) :: a, [], by simp, by simp [hd]; omega, rfl⟩
  · simpa using ha.within [(n, [[(Instr.jumpIfFalse d).encode]])] [] (m := n) rfl

/-- Code for a true condition, and code for a false one. -/
theorem branch {d d' : UInt16} (hv : B.Flows n v m) (hw : B.Flows n w m) (hpos : 0 < n)
    (hd : d.toNat = v.length + 1) (hd' : d'.toNat = w.length) :
    B.Flows n ((Instr.jumpIfFalse d).encode :: (v ++ (Instr.jump d').encode :: w)) m := by
  obtain ⟨a, rfl, hn, ha⟩ := hv
  obtain ⟨b, rfl, hn', hb⟩ := hw
  have hheight : n - (Instr.jumpIfFalse d).operands + (Instr.jumpIfFalse d).results = n :=
    Nat.sub_add_cancel hpos
  generalize hs : [[(Instr.jumpIfFalse d).encode]] = s
  generalize ht : [[(Instr.jump d').encode]] = t
  have hsl : s.flatten = [(Instr.jumpIfFalse d).encode] := by simp [← hs]
  have htl : t.flatten = [(Instr.jump d').encode] := by simp [← ht]
  refine ⟨(n, s) :: (a ++ (m, t) :: b), by simp [hsl, htl], rfl, ?_⟩
  have hfirst : B.Stretch 0 n (Mark ((n, s) :: (a ++ (m, t) :: b)) m) s := by
    rw [← hs]
    refine .instr trivial ?_
    rw [hheight, hs]
    refine ⟨⟨[(n, s)], a ++ (m, t) :: b, rfl, by simp [hsl], ?_⟩,
      ⟨(n, s) :: a ++ [(m, t)], b, by simp, by simp [hsl, htl, hd]; omega, hn'⟩⟩
    rw [height_append, height, hn]
  have hsecond (o : Nat) (ho : o = 1 + a.words.length) :
      B.Stretch o m (Mark ((n, s) :: (a ++ (m, t) :: b)) m) t := by
    rw [← ht]
    refine .instr trivial ?_
    show Mark _ m (o + 1 + d'.toNat) m
    rw [ht]
    exact ⟨(n, s) :: (a ++ (m, t) :: b), [], by simp, by simp [hsl, htl, hd', ho]; omega, rfl⟩
  refine ⟨hfirst, laid_append.mpr ⟨?_, hsecond _ (by simp [hsl]), ?_⟩⟩
  · simpa [hsl] using ha.within [(n, s)] ((m, t) :: b) (m := m) rfl
  · have := hb.within ((n, s) :: a ++ [(m, t)]) [] (m := m) rfl
    simpa [hsl, htl, Nat.add_assoc, Nat.add_comm] using this

/-- Code that is repeated as long as the condition behind it is true. -/
theorem repeating {d d' : UInt16} (hv : B.Flows n v (n + 1)) (hd : d.toNat = 2)
    (hd' : d'.toNat = v.length + 3) : B.Flows n
      (v ++ [(Instr.jumpIfFalse d).encode, Instr.pop.encode, (Instr.loop d').encode,
        Instr.pop.encode]) n := by
  obtain ⟨a, rfl, hn, ha⟩ := hv
  let one (i : Instr) (k : Nat) : Row := [(k, [[i.encode]])]
  have hone (i : Instr) (k : Nat) : (one i k).words = [i.encode] := by simp [one]
  let tail : Row := one (.jumpIfFalse d) (n + 1) ++ one .pop (n + 1) ++ one (.loop d') n ++
    one .pop (n + 1)
  have hmark (before after : Row) (q k : Nat) (hrow : a ++ tail = before ++ after)
      (hq : before.words.length = q) (hk : after.height n = k) : Mark (a ++ tail) n q k :=
    ⟨before, after, hrow, hq, hk⟩
  refine ⟨a ++ tail, by simp [tail, hone], ?_, laid_append.mpr ⟨?_, ?_⟩⟩
  · rw [height_append]
    exact hn
  · simpa using ha.within [] tail (m := n) rfl
  · refine ⟨.instr trivial ⟨?_, ?_⟩, .instr trivial ?_, .instr trivial ⟨0, ?_, ?_⟩,
      .instr trivial ?_, trivial⟩
    · exact hmark (a ++ one (.jumpIfFalse d) (n + 1)) (one .pop (n + 1) ++ one (.loop d') n ++
        one .pop (n + 1)) _ _ (by simp [tail]) (by simp [hone]) rfl
    · exact hmark (a ++ one (.jumpIfFalse d) (n + 1) ++ one .pop (n + 1) ++ one (.loop d') n)
        (one .pop (n + 1)) _ _ (by simp [tail]) (by simp [hone, hd]) rfl
    · exact hmark (a ++ one (.jumpIfFalse d) (n + 1) ++ one .pop (n + 1))
        (one (.loop d') n ++ one .pop (n + 1)) _ _ (by simp [tail]) (by simp [hone]) rfl
    · simp [hd']
    · exact hmark [] (a ++ tail) _ _ rfl rfl (by rw [height_append]; exact hn)
    · exact hmark (a ++ tail) [] _ _ (by simp) (by simp [tail, hone]) rfl

end Body.Flows

/-- The code of a condition in front of a loop with `after` words behind it up to the end of the
loop, and the code behind the loop. -/
inductive Body.Tests (B : Body) (n after : Nat) : List UInt32 → List UInt32 → Prop
  | none : Tests B n after [] []
  | some {test : List UInt32} {d : UInt16} (flows : B.Flows n test (n + 1))
      (distance : d.toNat = after + 1) :
      Tests B n after (test ++ [(Instr.jumpIfFalse d).encode, Instr.pop.encode]) [Instr.pop.encode]

/-- The code that a loop with `before` words of condition jumps back to after its body, and how far
before the body it is. -/
inductive Body.Advances (B : Body) (n before : Nat) : List UInt32 → Nat → Prop
  | none : Advances B n before [] before
  | some {step : List UInt32} {d d' : UInt16} (flows : B.Flows n step n)
      (distance : d.toNat = step.length + 1) (start : d'.toNat = before + step.length + 2) :
      Advances B n before ((Instr.jump d).encode :: (step ++ [(Instr.loop d').encode]))
        (step.length + 1)

namespace Row

variable {B : Body} {n after before back : Nat} {T X P : List UInt32}

/-- A row of one instruction. -/
def one (n : Nat) (i : Instr) : Row := [(n, [[i.encode]])]

/-- The word of one instruction is its encoding. -/
@[simp] theorem words_one (n : Nat) (i : Instr) : (one n i).words = [i.encode] := by simp [one]

/-- One instruction is laid where it is permitted and goes to a mark. -/
theorem laid_one {S : Nat → Nat → Prop} {o : Nat} {i : Instr} (hp : B.Permits i)
    (hg : i.Goes o fun t => S t (n - i.operands + i.results)) : Laid B S o (one n i) :=
  ⟨.instr hp hg, trivial⟩

/-- The rows of a condition and of what comes behind the loop, wherever the loop stands. -/
theorem exists_tests (h : B.Tests n after T X) : ∃ t x : Row, t.words = T ∧ x.words = X ∧
    ∀ mid : Row, mid.words.length = after → (∀ m, mid.height m = n) →
      (t ++ mid ++ x).height n = n ∧ Laid B ((t ++ mid ++ x).Mark n) 0 t ∧
        Laid B ((t ++ mid ++ x).Mark n) (T.length + after) x := by
  cases h with
  | none =>
    exact ⟨[], [], rfl, rfl, fun mid _ hheight => ⟨by rw [height_append]; exact hheight _, trivial,
      trivial⟩⟩
  | @some test d flows distance =>
    obtain ⟨a, rfl, hn, ha⟩ := flows
    refine ⟨a ++ one (n + 1) (.jumpIfFalse d) ++ one (n + 1) .pop, one (n + 1) .pop, by simp, by simp,
      fun mid hafter hheight => ?_⟩
    generalize hR : a ++ one (n + 1) (.jumpIfFalse d) ++ one (n + 1) .pop ++ mid ++ one (n + 1) .pop = R
    have hmark (pre post : Row) (q k : Nat) (hrow : R = pre ++ post) (hq : pre.words.length = q)
        (hk : post.height n = k) : R.Mark n q k := ⟨pre, post, hrow, hq, hk⟩
    refine ⟨?_, laid_append.mpr ⟨laid_append.mpr ⟨?_, laid_one trivial ⟨?_, ?_⟩⟩, laid_one trivial ?_⟩,
      laid_one trivial ?_⟩
    · rw [← hR, List.append_assoc, List.append_assoc, List.append_assoc, height_append]
      exact hn
    · have := ha.within [] (one (n + 1) (.jumpIfFalse d) ++ one (n + 1) .pop ++ mid ++
        one (n + 1) .pop) (m := n) rfl
      simpa [← hR] using this
    · exact hmark (a ++ one (n + 1) (.jumpIfFalse d)) (one (n + 1) .pop ++ mid ++ one (n + 1) .pop) _ _
        (by simp [← hR]) (by simp) rfl
    · exact hmark (a ++ one (n + 1) (.jumpIfFalse d) ++ one (n + 1) .pop ++ mid) (one (n + 1) .pop) _ _
        (by simp [← hR]) (by simp [hafter, distance]; omega) rfl
    · exact hmark (a ++ one (n + 1) (.jumpIfFalse d) ++ one (n + 1) .pop) (mid ++ one (n + 1) .pop) _ _
        (by simp [← hR]) (by simp) (by rw [height_append]; exact hheight _)
    · exact hmark R [] _ _ (by simp) (by simp [← hR, hafter]; omega) rfl

/-- The row of what a loop does after its body, and where the body jumps back to. -/
theorem exists_advances (h : B.Advances n before P back) : ∃ p : Row, p.words = P ∧
    (∀ post : Row, (∀ m, post.height m = n) → ∀ m, (p ++ post).height m = n) ∧
    ∀ t post : Row, t.words.length = before → (∀ m, post.height m = n) →
      (t ++ p ++ post).height n = n → Laid B ((t ++ p ++ post).Mark n) before p ∧
        ∃ q, q + back = before + P.length ∧ (t ++ p ++ post).Mark n q n := by
  cases h with
  | none =>
    exact ⟨[], rfl, fun _ h => h, fun t post _ _ hstart => ⟨trivial, 0, by simp,
      ⟨[], _, rfl, rfl, hstart⟩⟩⟩
  | @some step d d' flows distance start =>
    obtain ⟨a, rfl, hn, ha⟩ := flows
    refine ⟨one n (.jump d) ++ a ++ one n (.loop d'), by simp, fun _ _ _ => rfl,
      fun t post hbefore hheight hstart => ?_⟩
    generalize hR : t ++ (one n (.jump d) ++ a ++ one n (.loop d')) ++ post = R at hstart
    have hmark (pre post : Row) (q k : Nat) (hrow : R = pre ++ post) (hq : pre.words.length = q)
        (hk : post.height n = k) : R.Mark n q k := ⟨pre, post, hrow, hq, hk⟩
    refine ⟨laid_append.mpr ⟨laid_append.mpr ⟨laid_one trivial ?_, ?_⟩, laid_one trivial ⟨0, ?_, ?_⟩⟩,
      before + 1, ?_, ?_⟩
    · exact hmark (t ++ (one n (.jump d) ++ a ++ one n (.loop d'))) post _ _ hR.symm
        (by simp [hbefore, distance]; omega) (hheight _)
    · have := ha.within (t ++ one n (.jump d)) (one n (.loop d') ++ post) (m := n) rfl
      simpa [← hR, hbefore] using this
    · simp [start]
      omega
    · exact hmark [] R _ _ rfl rfl hstart
    · simp
      omega
    · exact hmark (t ++ one n (.jump d)) (a ++ one n (.loop d') ++ post) _ _ (by simp [← hR])
        (by simp [hbefore]) (by rw [List.append_assoc, height_append]; exact hn)

end Row

/-- A loop with its condition in front. -/
theorem Body.Flows.loop {B : Body} {n back : Nat} {T P X v : List UInt32} {d : UInt16}
    (tests : B.Tests n (P.length + v.length + 1) T X) (advances : B.Advances n T.length P back)
    (body : B.Flows n v n) (hd : d.toNat = back + v.length + 1) :
    B.Flows n (T ++ P ++ v ++ (Instr.loop d).encode :: X) n := by
  obtain ⟨t, x, rfl, rfl, ht⟩ := Row.exists_tests tests
  obtain ⟨p, rfl, hheight, hp⟩ := Row.exists_advances advances
  obtain ⟨b, rfl, hn, hb⟩ := body
  have hbody (m : Nat) : (b ++ Row.one n (.loop d)).height m = n := by
    rw [Row.height_append]
    exact hn
  have hmid : ∀ m, (p ++ (b ++ Row.one n (.loop d))).height m = n := hheight _ hbody
  obtain ⟨hstart, htest, hexit⟩ := ht (p ++ (b ++ Row.one n (.loop d)))
    (by simp [Nat.add_assoc]) hmid
  have hassoc : t ++ (p ++ (b ++ Row.one n (.loop d))) ++ x = t ++ p ++ (b ++ Row.one n (.loop d) ++ x) := by
    simp
  obtain ⟨hadvance, q, hq, hback⟩ := hp t (b ++ Row.one n (.loop d) ++ x) rfl
    (fun m => by rw [Row.height_append]; exact hbody _) (hassoc ▸ hstart)
  rw [← hassoc] at hadvance hback
  generalize hR : t ++ (p ++ (b ++ Row.one n (.loop d))) ++ x = R at *
  have hwithin := hb.within (t ++ p) (Row.one n (.loop d) ++ x) (m := n) rfl
  refine ⟨R, by simp [← hR], hstart, ?_⟩
  have hwhole : Row.Laid B (R.Mark n) 0 (t ++ (p ++ (b ++ Row.one n (.loop d))) ++ x) := by
    refine Row.laid_append.mpr ⟨Row.laid_append.mpr ⟨htest, Row.laid_append.mpr ⟨?_,
      Row.laid_append.mpr ⟨?_, Row.laid_one trivial ⟨q, ?_, hback⟩⟩⟩⟩, ?_⟩
    · simpa using hadvance
    · simpa [← hR] using hwithin
    · simp
      omega
    · simpa [Nat.add_assoc] using hexit
  rwa [hR] at hwhole

end ScriptMachine
