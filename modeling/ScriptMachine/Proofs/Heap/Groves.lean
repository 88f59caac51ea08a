import Mathlib.Data.List.Nodup
import Mathlib.Data.List.Perm.Subperm
import ScriptMachine.Proofs.Heap.Reachability
import ScriptMachine.Proofs.Value.References

/-!
# Functions as trees

A function refers to its name and its constants, and the functions among its constants refer to
theirs. Where everything met on the way is a text, a function or no object at all, a list of values
is a forest of functions. The forest is planted if no function is met twice.
-/

namespace ScriptMachine.Heap

variable {h h' : Heap} {vs ws : List Value} {all others roots : List Handle} {r x : Handle}

/-- The values are the trees of a grove, whose functions are `all` as they are met: each before
those among its constants. -/
inductive Grove (h : Heap) : List Value → List Handle → Prop
  | nil : Grove h [] []
  | leaf {v : Value} {vs : List Value} {all : List Handle}
      (text : ∀ r, v.toHandle? = some r → ∃ s, h.object? r = some (.string s))
      (rest : Grove h vs all) : Grove h (v :: vs) all
  | tree {v : Value} {vs : List Value} {all inner : List Handle} {r : Handle} {f : Prototype}
      (handle : v.toHandle? = some r) (object : h.object? r = some (.function f))
      (name : ∀ n, f.name = some n → ∃ s, h.object? n = some (.string s))
      (inside : Grove h f.chunk.constants.toList inner) (rest : Grove h vs all) :
      Grove h (v :: vs) (r :: inner ++ all)

namespace Grove

/-- The parts of a list of values have groves of their own. -/
theorem split (hv : h.Grove (vs ++ ws) all) :
    ∃ first second, all = first ++ second ∧ h.Grove vs first ∧ h.Grove ws second := by
  induction vs generalizing all with
  | nil => exact ⟨[], all, rfl, .nil, hv⟩
  | cons v vs ih =>
    cases hv with
    | leaf text rest =>
      obtain ⟨first, second, rfl, hfirst, hsecond⟩ := ih rest
      exact ⟨first, second, rfl, .leaf text hfirst, hsecond⟩
    | tree handle object name inside rest =>
      obtain ⟨first, second, rfl, hfirst, hsecond⟩ := ih rest
      exact ⟨_, second, (List.append_assoc ..).symm, .tree handle object name inside hfirst,
        hsecond⟩

/-- Fewer values have fewer functions. -/
theorem sublist (hv : h.Grove vs all) (hsub : ws.Sublist vs) :
    ∃ fewer : List Handle, fewer.Sublist all ∧ h.Grove ws fewer := by
  induction hsub generalizing all with
  | slnil => exact ⟨[], List.nil_sublist _, .nil⟩
  | cons v _ ih =>
    cases hv with
    | leaf _ rest => exact ih rest
    | tree _ _ _ _ rest =>
      obtain ⟨fewer, hfewer, hw⟩ := ih rest
      exact ⟨fewer, hfewer.trans (List.sublist_append_right _ _), hw⟩
  | cons_cons v _ ih =>
    cases hv with
    | leaf text rest =>
      obtain ⟨fewer, hfewer, hw⟩ := ih rest
      exact ⟨fewer, hfewer, .leaf text hw⟩
    | tree handle object name inside rest =>
      obtain ⟨fewer, hfewer, hw⟩ := ih rest
      exact ⟨_, hfewer.append_left _, .tree handle object name inside hw⟩

/-- The order of the values is the order of their functions. -/
theorem perm (hv : h.Grove vs all) (hperm : vs.Perm ws) :
    ∃ others : List Handle, all.Perm others ∧ h.Grove ws others := by
  induction hperm generalizing all with
  | nil => exact ⟨all, .refl _, hv⟩
  | cons v _ ih =>
    cases hv with
    | leaf text rest =>
      obtain ⟨others, hothers, hw⟩ := ih rest
      exact ⟨others, hothers, .leaf text hw⟩
    | tree handle object name inside rest =>
      obtain ⟨others, hothers, hw⟩ := ih rest
      exact ⟨_, hothers.append_left _, .tree handle object name inside hw⟩
  | swap v w vs =>
    cases hv with
    | leaf text rest =>
      cases rest with
      | leaf text' rest => exact ⟨_, .refl _, .leaf text' (.leaf text rest)⟩
      | tree handle object name inside rest =>
        exact ⟨_, .refl _, .tree handle object name inside (.leaf text rest)⟩
    | @tree _ _ _ inner₁ r₁ _ handle object name inside rest =>
      cases rest with
      | leaf text rest => exact ⟨_, .refl _, .leaf text (.tree handle object name inside rest)⟩
      | @tree _ _ _ inner₂ r₂ _ handle' object' name' inside' rest =>
        refine ⟨_, ?_, .tree handle' object' name' inside' (.tree handle object name inside rest)⟩
        rw [← List.append_assoc, ← List.append_assoc (r₂ :: inner₂)]
        exact List.perm_append_comm.append_right _
  | trans _ _ ih ih' =>
    obtain ⟨_, h₁, hw⟩ := ih hv
    obtain ⟨others, h₂, hw⟩ := ih' hw
    exact ⟨others, h₁.trans h₂, hw⟩

/-- What leads to the values leads to the functions of the grove. -/
theorem reachable (hv : h.Grove vs all)
    (hroots : ∀ v ∈ vs, ∀ r, v.toHandle? = some r → h.Reachable roots r) :
    ∀ x ∈ all, h.Reachable roots x := by
  induction hv with
  | nil => simp
  | leaf _ _ ih => exact ih fun v hv => hroots v (List.mem_cons_of_mem _ hv)
  | tree handle object _ _ _ ihinside ihrest =>
    have hr := hroots _ List.mem_cons_self _ handle
    intro x hx
    rcases List.mem_append.mp hx with hx | hx
    · rcases List.mem_cons.mp hx with rfl | hx
      · exact hr
      · exact ihinside (fun v hv y hy =>
          hr.step object (.functionConstant (Array.mem_toList_iff.mp hv) hy)) x hx
    · exact ihrest (fun v hv => hroots v (List.mem_cons_of_mem _ hv)) x hx

/-- A grove stays one while the objects that its values lead to stay as they are. -/
theorem congr (hv : h.Grove vs all)
    (hroots : ∀ v ∈ vs, ∀ r, v.toHandle? = some r → h.Reachable roots r)
    (hk : ∀ x, h.Reachable roots x → h'.object? x = h.object? x) : h'.Grove vs all := by
  induction hv with
  | nil => exact .nil
  | leaf text _ ih =>
    refine .leaf (fun r hr => ?_) (ih fun v hv => hroots v (List.mem_cons_of_mem _ hv))
    rw [hk r (hroots _ List.mem_cons_self r hr)]
    exact text r hr
  | tree handle object name _ _ ihinside ihrest =>
    have hr := hroots _ List.mem_cons_self _ handle
    refine .tree handle ((hk _ hr).trans object) (fun n hn => ?_) (ihinside fun v hv y hy =>
      hr.step object (.functionConstant (Array.mem_toList_iff.mp hv) hy))
      (ihrest fun v hv => hroots v (List.mem_cons_of_mem _ hv))
    rw [hk n (hr.step object (.functionName hn))]
    exact name n hn

end Grove

/-- The values are a forest in which no function is met twice. -/
def Planted (h : Heap) (vs : List Value) : Prop := ∃ all, h.Grove vs all ∧ all.Nodup

namespace Planted

/-- No values are planted. -/
theorem nil : h.Planted [] := ⟨[], .nil, .nil⟩

/-- Some of planted values are planted. -/
theorem sublist (hv : h.Planted vs) (hsub : ws.Sublist vs) : h.Planted ws := by
  obtain ⟨all, hgrove, hnodup⟩ := hv
  obtain ⟨fewer, hfewer, hw⟩ := hgrove.sublist hsub
  exact ⟨fewer, hw, hnodup.sublist hfewer⟩

/-- Planted values are planted in any order. -/
theorem perm (hv : h.Planted vs) (hperm : vs.Perm ws) : h.Planted ws := by
  obtain ⟨all, hgrove, hnodup⟩ := hv
  obtain ⟨others, hothers, hw⟩ := hgrove.perm hperm
  exact ⟨others, hw, hothers.nodup_iff.mp hnodup⟩

/-- Values stay planted while what they reach stays. -/
theorem congr (hv : h.Planted vs)
    (hroots : ∀ v ∈ vs, ∀ r, v.toHandle? = some r → h.Reachable roots r)
    (hk : ∀ x, h.Reachable roots x → h'.object? x = h.object? x) : h'.Planted vs := by
  obtain ⟨all, hgrove, hnodup⟩ := hv
  exact ⟨all, hgrove.congr hroots hk, hnodup⟩

/-- A value that is not a function may be added. -/
theorem leaf {v : Value} (hv : h.Planted vs)
    (text : ∀ r, v.toHandle? = some r → ∃ s, h.object? r = some (.string s)) :
    h.Planted (v :: vs) := by
  obtain ⟨all, hgrove, hnodup⟩ := hv
  exact ⟨all, .leaf text hgrove, hnodup⟩

/-- A function that nothing leads to may take the place of its constants. -/
theorem tree {f : Prototype} (hv : h.Planted (f.chunk.constants.toList ++ vs))
    (object : h.object? r = some (.function f))
    (name : ∀ n, f.name = some n → ∃ s, h.object? n = some (.string s))
    (hroots : ∀ v ∈ f.chunk.constants.toList ++ vs, ∀ y, v.toHandle? = some y →
      h.Reachable roots y) (fresh : ∀ x, h.Reachable roots x → x ≠ r) :
    h.Planted (.ofHandle r :: vs) := by
  obtain ⟨all, hgrove, hnodup⟩ := hv
  obtain ⟨inner, others, rfl, hinner, hothers⟩ := hgrove.split
  refine ⟨r :: inner ++ others, .tree (Value.toHandle?_ofHandle r) object name hinner hothers, ?_⟩
  exact List.nodup_cons.mpr ⟨fun hr => fresh r (hgrove.reachable hroots r hr) rfl, hnodup⟩

end Planted

/-! ### Level by level -/

/-- The function that a value refers to. -/
def functionOf? (h : Heap) (v : Value) : Option Handle :=
  v.toHandle?.filter fun r => (h.object? r).any fun o => o.kind = .function

/-- The functions among the constants of a function, in order. -/
def inner (h : Heap) (r : Handle) : List Handle :=
  match h.object? r with
  | some (.function f) => f.chunk.constants.toList.filterMap h.functionOf?
  | _ => []

/-- The functions at a depth below `rs`: those at the next depth are the ones inside these. -/
def level (h : Heap) (rs : List Handle) : Nat → List Handle
  | 0 => rs
  | d + 1 => (h.level rs d).flatMap h.inner

/-- The functions below `rs` that are less deep than `depth`, level by level. -/
def levels (h : Heap) (rs : List Handle) (depth : Nat) : List Handle :=
  (List.range depth).flatMap (h.level rs)

/-- The order in which functions leave a queue when each lets those inside it wait behind all
others. -/
inductive Queue (h : Heap) : List Handle → List Handle → Prop
  | done : Queue h [] []
  | next {r : Handle} {waiting order : List Handle} (rest : Queue h (waiting ++ h.inner r) order) :
      Queue h (r :: waiting) (r :: order)

variable {rs ss : List Handle} {d k : Nat}

/-- The functions of the next level are those inside of this one. -/
theorem level_succ (d : Nat) : h.level rs (d + 1) = h.level (rs.flatMap h.inner) d := by
  induction d with
  | zero => rfl
  | succ d ih => rw [level, ih, level]

/-- The levels of functions together are those of each. -/
theorem level_append (d : Nat) : h.level (rs ++ ss) d = h.level rs d ++ h.level ss d := by
  induction d with
  | zero => rfl
  | succ d ih => rw [level, ih, List.flatMap_append, ← level, ← level]

/-- Below an empty level all are empty. -/
theorem level_eq_nil (hd : h.level rs d = []) (hle : d ≤ k) : h.level rs k = [] := by
  induction hle with
  | refl => exact hd
  | step _ ih => rw [level, ih, List.flatMap_nil]

/-- The functions of all levels are those given and the levels inside of them. -/
theorem levels_succ (d : Nat) :
    h.levels rs (d + 1) = rs ++ h.levels (rs.flatMap h.inner) d := by
  rw [levels, List.range_succ_eq_map, List.flatMap_cons, List.flatMap_map, level, levels]
  simp only [level_succ]

/-- Empty levels add nothing. -/
theorem levels_eq (hd : h.level rs d = []) (hle : d ≤ k) : h.levels rs k = h.levels rs d := by
  induction hle with
  | refl => rfl
  | @step k hle ih =>
    rw [levels, List.range_succ, List.flatMap_append, ← levels, ih, List.flatMap_singleton,
      level_eq_nil hd hle, List.append_nil]

/-- When the functions in front have left, those inside them wait behind the others. -/
theorem Queue.pass (hq : h.Queue (ss ++ rs.flatMap h.inner) all) :
    h.Queue (rs ++ ss) (rs ++ all) := by
  induction rs generalizing ss with
  | nil => simpa using hq
  | cons r rs ih =>
    rw [List.flatMap_cons, ← List.append_assoc] at hq
    have hrest := ih hq
    rw [← List.append_assoc] at hrest
    exact .next hrest

/-- Functions leave the queue level by level. -/
theorem queue_levels (hd : h.level rs d = []) : h.Queue rs (h.levels rs d) := by
  induction d generalizing rs with
  | zero =>
    obtain rfl : rs = [] := hd
    exact .done
  | succ d ih =>
    rw [level_succ] at hd
    rw [levels_succ]
    have hpass : h.Queue (rs ++ []) _ := Queue.pass (ih hd)
    rwa [List.append_nil] at hpass

namespace Grove

/-- A value refers to a function or it does not. -/
theorem functionOf?_eq_some {v : Value} {f : Prototype} (hr : v.toHandle? = some r)
    (object : h.object? r = some (.function f)) : h.functionOf? v = some r := by
  simp [functionOf?, hr, object, Object.kind]

/-- A string is no function. -/
theorem functionOf?_eq_none {v : Value}
    (text : ∀ r, v.toHandle? = some r → ∃ s, h.object? r = some (.string s)) :
    h.functionOf? v = none := by
  cases hr : v.toHandle? with
  | none => simp [functionOf?, hr]
  | some r =>
    obtain ⟨s, hs⟩ := text r hr
    simp [functionOf?, hr, hs, Object.kind]

/-- The levels of a grove end, and have all of its functions. -/
theorem exists_levels (hv : h.Grove vs all) : ∃ d,
    h.level (vs.filterMap h.functionOf?) d = [] ∧
      (h.levels (vs.filterMap h.functionOf?) d).Perm all := by
  induction hv with
  | nil => exact ⟨0, rfl, .refl _⟩
  | leaf text _ ih =>
    rw [List.filterMap_cons_none (functionOf?_eq_none text)]
    exact ih
  | @tree v vs all inside r f handle object name _ _ ihinside ihrest =>
    obtain ⟨d, hd, hperm⟩ := ihinside
    obtain ⟨e, he, hperm'⟩ := ihrest
    have hinner : h.inner r = f.chunk.constants.toList.filterMap h.functionOf? := by
      rw [Heap.inner, object]
    have hfirst (k : Nat) : h.level [r] (k + 1) = h.level (h.inner r) k := by
      rw [level_succ, List.flatMap_singleton]
    have hfirst' : h.levels [r] (d + 1) = r :: h.levels (h.inner r) d := by
      rw [levels_succ, List.flatMap_singleton, List.singleton_append]
    rw [← hinner, ← hfirst] at hd
    rw [← hinner] at hperm
    rw [List.filterMap_cons_some (functionOf?_eq_some handle object), ← List.singleton_append]
    refine ⟨max (d + 1) e, ?_, ?_⟩
    · rw [level_append, level_eq_nil hd (Nat.le_max_left ..), level_eq_nil he (Nat.le_max_right ..),
        List.append_nil]
    · have hsplit : (h.levels ([r] ++ vs.filterMap h.functionOf?) (max (d + 1) e)).Perm
          (h.levels [r] (max (d + 1) e) ++ h.levels (vs.filterMap h.functionOf?) (max (d + 1) e)) := by
        have hlevel : h.level ([r] ++ vs.filterMap h.functionOf?) =
            fun k => h.level [r] k ++ h.level (vs.filterMap h.functionOf?) k :=
          funext level_append
        rw [levels, hlevel]
        exact (List.flatMap_append_perm _ _ _).symm
      refine hsplit.trans ?_
      rw [levels_eq hd (Nat.le_max_left ..), levels_eq he (Nat.le_max_right ..), hfirst']
      exact (hperm.cons r).append hperm'

/-- What the values of a grove refer to is one of its functions or a text. -/
theorem handles (hv : h.Grove vs all) : ∀ v ∈ vs, ∀ y, v.toHandle? = some y →
    y ∈ all ∨ ∃ s, h.object? y = some (.string s) := by
  induction hv with
  | nil => simp
  | leaf text _ ih =>
    intro v hv y hy
    rcases List.mem_cons.mp hv with rfl | hv
    · exact .inr (text y hy)
    · exact ih v hv y hy
  | tree handle _ _ _ _ _ ih =>
    intro v hv y hy
    rcases List.mem_cons.mp hv with rfl | hv
    · obtain rfl := Option.some.inj (handle.symm.trans hy)
      exact .inl List.mem_cons_self
    · exact (ih v hv y hy).imp_left (List.mem_append_right _)

/-- The functions of a grove are functions, and refer to its functions and texts. -/
theorem functions (hv : h.Grove vs all) : ∀ x ∈ all, ∃ f, h.object? x = some (.function f) ∧
    ∀ y, (Object.function f).Stores y → y ∈ all ∨ ∃ s, h.object? y = some (.string s) := by
  induction hv with
  | nil => simp
  | leaf _ _ ih => exact ih
  | @tree v vs all inside r f handle object name hinside _ ihinside ihrest =>
    intro x hx
    rcases List.mem_append.mp hx with hx | hx
    · rcases List.mem_cons.mp hx with rfl | hx
      · refine ⟨f, object, fun y hy => ?_⟩
        cases hy with
        | functionName at_ => exact .inr (name y at_)
        | functionConstant mem at_ =>
          exact (hinside.handles _ (Array.mem_toList_iff.mpr mem) y at_).imp_left fun hy =>
            List.mem_append_left _ (List.mem_cons_of_mem _ hy)
      · obtain ⟨g, hg, hstores⟩ := ihinside x hx
        exact ⟨g, hg, fun y hy => (hstores y hy).imp_left fun hy =>
          List.mem_append_left _ (List.mem_cons_of_mem _ hy)⟩
    · obtain ⟨g, hg, hstores⟩ := ihrest x hx
      exact ⟨g, hg, fun y hy => (hstores y hy).imp_left (List.mem_append_right _)⟩

/-- What the values of a grove lead to is one of its functions or a text. -/
theorem reached (hv : h.Grove vs all) (hx : h.Reachable (vs.filterMap Value.toHandle?) x) :
    x ∈ all ∨ ∃ s, h.object? x = some (.string s) := by
  induction hx with
  | root mem =>
    obtain ⟨v, hmem, hr⟩ := List.mem_filterMap.mp mem
    exact hv.handles v hmem _ hr
  | step _ object stores ih =>
    rcases ih with hr | ⟨s, hs⟩
    · obtain ⟨g, hg, hstores⟩ := hv.functions _ hr
      obtain rfl := Option.some.inj (hg.symm.trans object)
      exact hstores _ stores
    · obtain rfl := Option.some.inj (hs.symm.trans object)
      cases stores

/-- The functions of a grove are the functions that its values lead to. -/
theorem mem_iff (hv : h.Grove vs all) :
    x ∈ all ↔ h.Reachable (vs.filterMap Value.toHandle?) x ∧
      ∃ f, h.object? x = some (.function f) := by
  constructor
  · intro hx
    obtain ⟨f, hf, -⟩ := hv.functions x hx
    exact ⟨hv.reachable (fun v hv r hr => .root (List.mem_filterMap.mpr ⟨v, hv, hr⟩)) x hx, f, hf⟩
  · rintro ⟨hx, f, hf⟩
    rcases hv.reached hx with hall | ⟨s, hs⟩
    · exact hall
    · cases hs.symm.trans hf

end Grove

/-- Distinct handles are not more than there are slots. -/
theorem length_le_of_nodup (hall : all.Nodup) : all.length ≤ UInt32.size := by
  have hslots : (all.map Handle.slot).Nodup :=
    List.Nodup.map (fun _ _ => Handle.slot_injective) hall
  have hsub : all.map Handle.slot ⊆ List.range UInt32.size := by
    intro n hn
    obtain ⟨r, -, rfl⟩ := List.mem_map.mp hn
    exact List.mem_range.mpr r.index.toNat_lt_size
  have hlength := (hslots.subperm hsub).length_le
  rwa [List.length_map, List.length_range] at hlength

/-- The functions that a planted one leads to, level by level: they end, no function is met twice,
and it is the first one. -/
theorem Planted.exists_order {f : Prototype} (hv : h.Planted [.ofHandle r])
    (object : h.object? r = some (.function f)) : ∃ d, h.level [r] d = [] ∧
      (h.levels [r] d).head? = some r ∧ (h.levels [r] d).Nodup ∧
      (h.levels [r] d).length ≤ UInt32.size ∧
      ∀ x, x ∈ h.levels [r] d ↔ h.Reachable [r] x ∧ ∃ f, h.object? x = some (.function f) := by
  obtain ⟨all, hgrove, hall⟩ := hv
  obtain ⟨d, hd, hperm⟩ := hgrove.exists_levels
  have hat : (Value.ofHandle r).toHandle? = some r := Value.toHandle?_ofHandle r
  rw [List.filterMap_cons_some (Grove.functionOf?_eq_some hat object), List.filterMap_nil] at hd hperm
  have hnodup := hperm.nodup_iff.mpr hall
  refine ⟨d, hd, ?_, hnodup, length_le_of_nodup hnodup, fun x => ?_⟩
  · cases d with
    | zero => cases hd
    | succ d => rw [levels_succ, List.singleton_append, List.head?_cons]
  · have hmem := hgrove.mem_iff (x := x)
    rw [List.filterMap_cons_some hat, List.filterMap_nil] at hmem
    rw [hperm.mem_iff]
    exact hmem

end ScriptMachine.Heap
