import Mathlib.Data.List.Nodup
import ScriptMachine.Machine.Capture
import ScriptMachine.Proofs.Machine.Does

/-!
# Capturing and closing variables

The listed upvalues stand for different slots, the highest first, so a slot that is captured again
is found again. Closing from a slot on gives each upvalue of a slot that goes the value of the slot,
and leaves every other one as it is; what is read through an upvalue is the same before and after.

Whether an upvalue stands for a slot or keeps a value of its own, a value is read through it. When
the slots from a boundary on go, the upvalues that stand for them are closed and the others stay as
they are; what is read through an upvalue is the same before and after.
-/

namespace ScriptMachine

namespace Heap

variable {h : Heap} {boundary : Nat} {rs : List Handle} {js : List Nat} {r : Handle} {j : Nat}

/-- An open upvalue is found with its slot. -/
theorem StandsFor.openSlot (hr : h.StandsFor r j) : h.openSlot r = .ok j := by
  rw [StandsFor] at hr
  simp only [Heap.openSlot, Heap.upvalue, Heap.object, hr]

/-- A list of upvalues that stand for slots, split in those from a boundary on and the others. -/
structure Split (h : Heap) (boundary : Nat) (rs upper lower : List Handle) : Prop where
  whole : rs = upper ++ lower
  upper : ∀ r ∈ upper, ∃ j, h.StandsFor r j ∧ boundary ≤ j
  lower : ∀ r ∈ lower, ∃ j, h.StandsFor r j ∧ j < boundary

/-- Splitting a list of open upvalues loses none and keeps their order. -/
theorem splitOpen_append {above upper lower : List Handle}
    (hsplit : h.splitOpen boundary above rs = .ok (upper, lower)) :
    upper.reverse ++ lower = above.reverse ++ rs := by
  induction rs generalizing above with
  | nil =>
    obtain ⟨rfl, rfl⟩ := Prod.mk.inj (Except.ok.inj hsplit)
    rfl
  | cons r rs ih =>
    rw [splitOpen] at hsplit
    split at hsplit
    · split at hsplit
      · rw [ih hsplit, List.reverse_cons, List.append_assoc]
        rfl
      · obtain ⟨rfl, rfl⟩ := Prod.mk.inj (Except.ok.inj hsplit)
        rfl
    · cases hsplit

/-- A list with the highest slot first can be split anywhere. -/
theorem splitOpen_eq (boundary : Nat) (hrs : List.Forall₂ h.StandsFor rs js) (hsorted : js.Pairwise (· > ·))
    (above : List Handle) : ∃ upper lower,
      h.splitOpen boundary above rs = .ok (upper.reverse ++ above, lower) ∧
        h.Split boundary rs upper lower := by
  induction hrs generalizing above with
  | nil => exact ⟨[], [], rfl, rfl, by simp, by simp⟩
  | @cons r j rs js hr hrest ih =>
    obtain ⟨hfirst, hsorted⟩ := List.pairwise_cons.mp hsorted
    rw [splitOpen]
    simp only [hr.openSlot]
    by_cases hj : boundary ≤ j
    · rw [if_pos hj]
      obtain ⟨upper, lower, heq, hsplit⟩ := ih hsorted (r :: above)
      refine ⟨r :: upper, lower, by rw [heq, List.reverse_cons, List.append_assoc]; rfl,
        by rw [hsplit.whole]; rfl, ?_, hsplit.lower⟩
      exact List.forall_mem_cons.mpr ⟨⟨j, hr, hj⟩, hsplit.upper⟩
    · rw [if_neg hj]
      refine ⟨[], r :: rs, rfl, rfl, by simp, List.forall_mem_cons.mpr ⟨⟨j, hr, by omega⟩, ?_⟩⟩
      intro x hx
      obtain ⟨i, hi, hxi⟩ := exists_of_mem_left hrest hx
      have hlt := hfirst i hi
      exact ⟨i, hxi, by omega⟩

/-- The lowest of some upvalues that stand for slots from `slot` on is the one of `slot`, if there
is one. -/
theorem firstOpen?_eq {upper : List Handle} {slot : Nat} (hrs : List.Forall₂ h.StandsFor upper js)
    (hsorted : js.Pairwise (· > ·)) (hle : ∀ j ∈ js, slot ≤ j) :
    (∃ r ∈ upper, h.firstOpen? slot upper.reverse = .ok (some r) ∧ h.StandsFor r slot) ∨
      (h.firstOpen? slot upper.reverse = .ok none ∧ ∀ j ∈ js, slot < j) := by
  rcases List.eq_nil_or_concat' js with rfl | ⟨is, j, rfl⟩
  · cases hrs
    exact .inr ⟨rfl, by simp⟩
  · obtain ⟨us, u, rfl, -, hu⟩ := Exec.forall₂_concat_right hrs
    obtain ⟨-, -, hlow⟩ := List.pairwise_append.mp hsorted
    rw [List.reverse_concat, firstOpen?, hu.openSlot]
    by_cases hj : j = slot
    · subst hj
      exact .inl ⟨u, by simp, by simp [Except.map], hu⟩
    · refine .inr ⟨by simp [Except.map, hj], fun i hi => ?_⟩
      have hjle := hle j (by simp)
      rcases List.mem_append.mp hi with hi | hi
      · have := hlow i hi j (by simp)
        omega
      · rw [List.mem_singleton.mp hi]
        omega

/-- Inserting the upvalue of a slot keeps the list in order. -/
theorem ordered_insert {upper lower : List Handle} {slot : Nat}
    (hrs : List.Forall₂ h.StandsFor (upper ++ lower) js) (hsorted : js.Pairwise (· > ·))
    (hr : h.StandsFor r slot) (hupper : ∀ x ∈ upper, ∀ j, h.StandsFor x j → slot < j)
    (hlower : ∀ x ∈ lower, ∀ j, h.StandsFor x j → j < slot) :
    ∃ js, List.Forall₂ h.StandsFor (upper ++ r :: lower) js ∧ js.Pairwise (· > ·) := by
  obtain ⟨is, ks, rfl, his, hks⟩ := Exec.forall₂_append_right hrs.flip
  obtain ⟨hsi, hsk, hik⟩ := List.pairwise_append.mp hsorted
  refine ⟨is ++ slot :: ks, List.rel_append his.flip (.cons hr hks.flip),
    List.pairwise_append.mpr ⟨hsi, List.pairwise_cons.mpr ⟨fun k hk => ?_, hsk⟩, fun i hi k hk => ?_⟩⟩
  · obtain ⟨x, hx, hxk⟩ := exists_of_mem_left hks hk
    exact hlower x hx k hxk
  · rcases List.mem_cons.mp hk with rfl | hk
    · obtain ⟨x, hx, hxi⟩ := exists_of_mem_left his hi
      exact hupper x hx i hxi
    · exact hik i hi k hk

/-- `h'` is `h` with the upvalues `rs` closed over the values of a stack. -/
structure Closes (h : Heap) (stack : Array Value) (rs : List Handle) (h' : Heap) : Prop where
  closed : ∀ r ∈ rs, ∃ j v, h.StandsFor r j ∧ stack[j]? = some v ∧
    h'.object? r = some (.upvalue (.closed v))
  kept : ∀ x, x ∉ rs → h'.object? x = h.object? x

/-- The values may be on a higher stack. -/
theorem Closes.restack {h' : Heap} {stack stack' : Array Value} (hc : h.Closes stack rs h')
    (hstack : ∀ (j : Nat) (v : Value), stack[j]? = some v → stack'[j]? = some v) :
    h.Closes stack' rs h' where
  closed := fun r hr => by
    obtain ⟨j, v, hj, hv, hclosed⟩ := hc.closed r hr
    exact ⟨j, v, hj, hstack j v hv, hclosed⟩
  kept := hc.kept

end Heap

namespace World

variable {W : World} {h h' : Heap} {S T : List Slot} {rs upper lower : List Handle} {boundary : Nat}

/-- No upvalue is listed twice. -/
theorem Lists.nodup (hl : W.Lists h S rs) : rs.Nodup := by
  obtain ⟨js, hrs, hsorted⟩ := hl.ordered
  clear hl
  induction hrs with
  | nil => exact List.nodup_nil
  | @cons r j rs js hr hrest ih =>
    obtain ⟨hfirst, hsorted⟩ := List.pairwise_cons.mp hsorted
    refine List.nodup_cons.mpr ⟨fun hmem => ?_, ih hsorted⟩
    obtain ⟨i, hi, hri⟩ := exists_of_mem_left hrest hmem
    have hlt := hfirst i hi
    rw [hr.inj hri] at hlt
    exact absurd hlt (Nat.lt_irrefl i)

/-- There is one listed upvalue for a slot at most. -/
theorem Lists.shared {r r' : Handle} {j : Nat} (hl : W.Lists h S rs) (hr : h.StandsFor r j)
    (hr' : h.StandsFor r' j) : r = r' := by
  have hmem := hl.all r j hr
  have hmem' := hl.all r' j hr'
  obtain ⟨js, hrs, hsorted⟩ := hl.ordered
  clear hl
  induction hrs with
  | nil => cases hmem
  | @cons x i rs js hx hrest ih =>
    obtain ⟨hfirst, hsorted⟩ := List.pairwise_cons.mp hsorted
    -- an upvalue behind the first one stands for a lower slot
    have hbehind (y : Handle) (hy : y ∈ rs) (hyj : h.StandsFor y j) : j < i := by
      obtain ⟨k, hk, hyk⟩ := exists_of_mem_left hrest hy
      exact hyj.inj hyk ▸ hfirst k hk
    rcases List.mem_cons.mp hmem with rfl | hin <;> rcases List.mem_cons.mp hmem' with rfl | hin'
    · rfl
    · exact absurd (hbehind r' hin' hr') (by rw [hr.inj hx]; exact Nat.lt_irrefl i)
    · exact absurd (hbehind r hin hr) (by rw [hr'.inj hx]; exact Nat.lt_irrefl i)
    · exact ih hin hin' hsorted

/-- A new upvalue for a slot is listed between those of the higher and of the lower slots. -/
theorem Lists.insert {V : World} {roots : List Handle} {r : Handle} {slot : Nat} {c : Content}
    (hl : W.Lists h S (upper ++ lower)) (hc : W.Carries h roots V h')
    (hroots : ∀ x ∈ upper ++ lower, x ∈ roots)
    (hupper : ∀ x ∈ upper, ∀ j, h.StandsFor x j → slot < j)
    (hlower : ∀ x ∈ lower, ∀ j, h.StandsFor x j → j < slot) (hnew : h'.StandsFor r slot)
    (htype : V r = some (.upvalue c)) (hslot : S[slot]? = some ⟨c, true⟩)
    (hold : ∀ x j, h'.StandsFor x j → x ≠ r → h.StandsFor x j) :
    V.Lists h' S (upper ++ r :: lower) := by
  have hkept (x : Handle) (hx : x ∈ upper ++ lower) : h'.object? x = h.object? x :=
    hc.objects x (.root (hroots x hx))
  have hback (x : Handle) (hx : x ∈ upper ++ lower) (j : Nat) (hj : h'.StandsFor x j) :
      h.StandsFor x j := (hkept x hx).symm.trans hj
  have hmem (x : Handle) : x ∈ upper ++ r :: lower ↔ x = r ∨ x ∈ upper ++ lower := by
    simp only [List.mem_append, List.mem_cons]
    tauto
  refine ⟨?_, fun x hx j hj => ?_, fun x j hj => (hmem x).mpr ?_⟩
  · obtain ⟨js, hrs, hsorted⟩ := hl.ordered
    refine Heap.ordered_insert ?_ hsorted hnew
      (fun x hx j hj => hupper x hx j (hback x (List.mem_append_left _ hx) j hj))
      (fun x hx j hj => hlower x hx j (hback x (List.mem_append_right _ hx) j hj))
    refine List.forall₂_iff_get.mpr ⟨hrs.length_eq, fun i hi hi' => ?_⟩
    exact (hkept _ (List.get_mem _ _)).trans ((List.forall₂_iff_get.mp hrs).2 i hi hi')
  · rcases (hmem x).mp hx with rfl | hx
    · obtain rfl : slot = j := Heap.StandsFor.inj hnew hj
      exact ⟨c, htype, hslot⟩
    · obtain ⟨c', ht, hslot'⟩ := hl.slot x hx j (hback x hx j hj)
      exact ⟨c', hc.types _ _ (.root (hroots x hx)) ht, hslot'⟩
  · by_cases hx : x = r
    · exact .inl hx
    · exact .inr (hl.all x j (hold x j hj hx))

/-- After closing from a boundary on, the upvalues of the slots below it are listed. -/
theorem Lists.close {stack : Array Value} (hl : W.Lists h (S ++ T) rs)
    (hsplit : h.Split S.length rs upper lower) (hcloses : h.Closes stack upper h') :
    W.Lists h' S lower := by
  have hwhole := hsplit.whole
  have hdisjoint (x : Handle) (hx : x ∈ lower) : x ∉ upper := fun hx' =>
    (List.nodup_append.mp (hwhole ▸ hl.nodup)).2.2 x hx' x hx rfl
  have hkept (x : Handle) (hx : x ∈ lower) : h'.object? x = h.object? x :=
    hcloses.kept x (hdisjoint x hx)
  refine ⟨?_, fun r hr j hj => ?_, fun r j hj => ?_⟩
  · obtain ⟨js, hrs, hsorted⟩ := hl.ordered
    rw [hwhole] at hrs
    refine ⟨js.drop upper.length, List.forall₂_iff_get.mpr ?_, hsorted.drop⟩
    have hdrop := List.forall₂_drop upper.length hrs
    rw [List.drop_left] at hdrop
    refine ⟨hdrop.length_eq, fun i hi hi' => ?_⟩
    exact (hkept _ (List.get_mem _ _)).trans ((List.forall₂_iff_get.mp hdrop).2 i hi hi')
  · obtain ⟨i, hi, hlt⟩ := hsplit.lower r hr
    have hj' : h.StandsFor r j := (hkept r hr).symm.trans hj
    obtain ⟨c, ht, hslot⟩ := hl.slot r (hwhole ▸ List.mem_append_right _ hr) j hj'
    rw [List.getElem?_append_left (hj'.inj hi ▸ hlt)] at hslot
    exact ⟨c, ht, hslot⟩
  · by_cases hr : r ∈ upper
    · obtain ⟨i, v, -, -, hclosed⟩ := hcloses.closed r hr
      cases hclosed.symm.trans hj
    · have hj' : h.StandsFor r j := (hcloses.kept r hr).symm.trans hj
      rcases List.mem_append.mp (hwhole ▸ hl.all r j hj') with hr' | hr'
      · exact absurd hr' hr
      · exact hr'

end World

namespace Exec

variable {m : Machine} {W : World} {O : Outline} {S T : List Slot} {g : Option String}
  {a : Activation} {rest : List Activation} {r : Handle} {c : Content} {v : Value}

/-! ### Capturing -/

/-- What is known of a machine in the midst of capturing: a slot above its stack may be captured
already. -/
structure Capturing (m : Machine) (W : World) (O : Outline) (T : List Slot) : Prop where
  typed : m.Typed W O
  lists : W.Lists m.heap T m.openUpvalues

/-- What `m` keeps alive is kept alive by `m'` and known in `V` as before. -/
def KeepsOn (m : Machine) (W : World) (m' : Machine) (V : World) : Prop :=
  ∀ x t, m.Keeps x → W x = some t → m'.Keeps x ∧ V x = some t

/-- Capturing a slot gives the upvalue that stands for it, which is listed. -/
theorem does_captureSlot {slot : Nat} (hm : Capturing m W O T)
    (hslot : T[slot]? = some ⟨c, true⟩) : Does (captureSlot slot m) fun r m' =>
      ∃ V, Capturing m' V O T ∧ V r = some (.upvalue c) ∧ m'.Keeps r ∧ KeepsOn m W m' V := by
  have hlisted (x : Handle) (hx : x ∈ m.openUpvalues) : m.Keeps x :=
    .root (Machine.mem_roots.mpr (.inr (.inr (.inl hx))))
  obtain ⟨js, hrs, hsorted⟩ := hm.lists.ordered
  obtain ⟨upper, lower, heq, hsplit⟩ := Heap.splitOpen_eq slot hrs hsorted []
  rw [List.append_nil] at heq
  refine does_bind_ok (n := m) (b := m.openUpvalues) rfl
    (does_bind_ok (readHeap_eq (f := (·.splitOpen slot [] m.openUpvalues)) heq) ?_)
  have hwhole := hsplit.whole
  rw [hwhole] at hrs
  obtain ⟨is, ks, rfl, his, hks⟩ := forall₂_append_right hrs.flip
  obtain ⟨hsi, -, -⟩ := List.pairwise_append.mp hsorted
  have hle (i : Nat) (hi : i ∈ is) : slot ≤ i := by
    obtain ⟨x, hx, hxi⟩ := exists_of_mem_left his hi
    obtain ⟨j, hj, hle⟩ := hsplit.upper x hx
    rwa [Heap.StandsFor.inj hxi hj]
  rcases Heap.firstOpen?_eq his.flip hsi hle with ⟨r, hr, hfirst, hstands⟩ | ⟨hfirst, hlt⟩
  · refine does_bind_ok (readHeap_eq (f := (·.firstOpen? slot upper.reverse)) hfirst) ?_
    have hmem : r ∈ m.openUpvalues := hwhole ▸ List.mem_append_left _ hr
    obtain ⟨c', ht, hslot'⟩ := hm.lists.slot r hmem slot hstands
    obtain rfl : c = c' := by simpa using hslot.symm.trans hslot'
    exact ⟨W, hm, ht, hlisted r hmem, fun x t hx ht => ⟨hx, ht⟩⟩
  · refine does_bind_ok (readHeap_eq (f := (·.firstOpen? slot upper.reverse)) hfirst) ?_
    refine (does_alloc_raw (t := .upvalue c) hm.typed hm.lists .openUpvalue (by simp)).bind
      fun r m' h => ?_
    obtain ⟨h', V, rfl, ha⟩ := h
    have hlist : upper.reverse.reverseAux (r :: lower) = upper ++ r :: lower := by
      rw [List.reverseAux_eq, List.reverse_reverse]
    have hlists : V.Lists h' T (upper ++ r :: lower) := by
      refine (hwhole ▸ hm.lists).insert ha.kept (fun x hx => ?_) (fun x hx j hj => ?_)
        (fun x hx j hj => ?_) ha.new ha.type hslot fun x j hj hx => ha.old x _ hj hx
      · exact Machine.mem_roots.mpr (.inr (.inr (.inl (hwhole ▸ hx))))
      · obtain ⟨i, hi, hxi⟩ := exists_of_mem_right his hx
        rw [hj.inj hxi]
        exact hlt i hi
      · obtain ⟨i, hi, hlt⟩ := hsplit.lower x hx
        rwa [hj.inj hi]
    rw [← hlist] at hlists
    refine ⟨V, ⟨hm.typed.carry ha.kept ha.sound _, hlists⟩, ha.type, ?_, fun x t hx ht =>
      ⟨?_, ha.kept.types x t hx ht⟩⟩
    · refine .root (Machine.mem_roots.mpr (.inr (.inr (.inl ?_))))
      show r ∈ upper.reverse.reverseAux (r :: lower)
      rw [hlist]
      simp
    · -- what was listed is listed still
      refine ((Heap.reachable_congr ha.kept.objects).mpr hx).mono fun y hy => ?_
      rw [Machine.mem_roots] at hy ⊢
      refine hy.imp_right (Or.imp_right (Or.imp_left fun hy => ?_))
      show y ∈ upper.reverse.reverseAux (r :: lower)
      rw [hwhole] at hy
      simp only [hlist, List.mem_append, List.mem_cons] at hy ⊢
      tauto

/-- An upvalue of the running closure. -/
theorem does_frameUpvalue {j : Nat} (hm : m.Typed W ⟨S, g, a :: rest⟩)
    (hj : a.context.captures[j]? = some c) : Does (frameUpvalue j m) fun r m' =>
      m' = m ∧ W r = some (.upvalue c) ∧ m.Keeps r := by
  have hr := hm.runs a List.mem_cons_self
  obtain ⟨hlt, hget⟩ := List.getElem?_eq_some_iff.mp hj
  have hlt' : j < a.closure.upvalues.toList.length := hr.upvalues.length_eq ▸ hlt
  have hup : a.closure.upvalues[j]? = some a.closure.upvalues.toList[j] := by
    rw [← Array.getElem?_toList]
    exact List.getElem?_eq_getElem hlt'
  have hclosure : m.heap.closure a.frame.closure = .ok a.closure := by
    simp only [Heap.closure, Heap.object, hr.closure]
  refine (does_frame hm).bind fun f m' h => ?_
  obtain ⟨rfl, rfl⟩ := h
  refine does_bind_ok (readHeap_eq hclosure) ?_
  simp only [hup]
  refine ⟨rfl, ?_, hm.keeps_upvalue List.mem_cons_self (Array.mem_toList_iff.mp (List.getElem_mem _))⟩
  exact hget ▸ (List.forall₂_iff_get.mp hr.upvalues).2 j hlt' hlt

/-- The captures of a closure instruction give the upvalues that the function asks for. -/
theorem does_captures {Γ : CodeContext} {cs : List Capture} {contents made : List Content}
    {own : List Slot} {below : Nat} (done : Array Handle) (hm : Capturing m W ⟨S, g, a :: rest⟩ T)
    (hcontext : a.context = Γ) (hbase : a.frame.base = below) (hown : T.drop below = own)
    (hcs : List.Forall₂ (Captures Γ own) cs contents)
    (hwords : cs.map Capture.encode <+: a.layout.words.drop a.frame.ip)
    (hdone : List.Forall₂ (fun r content => m.Keeps r ∧ W r = some (.upvalue content))
      done.toList made) : Does (captures cs.length done m) fun rs m' =>
      ∃ V, Capturing m' V ⟨S, g, a.goTo (a.frame.ip + cs.length) :: rest⟩ T ∧
        List.Forall₂ (fun r content => V r = some (.upvalue content)) rs.toList (made ++ contents) ∧
        KeepsOn m W m' V := by
  induction hcs generalizing done made a m W with
  | nil =>
    rw [List.append_nil]
    exact ⟨W, hm, hdone.imp fun _ _ => And.right, fun x t hx ht => ⟨hx, ht⟩⟩
  | @cons capture content cs contents hc _ ih =>
    obtain ⟨hword, hrest⟩ : a.layout.words[a.frame.ip]? = some capture.encode ∧
        cs.map Capture.encode <+: a.layout.words.drop (a.frame.ip + 1) := by
      obtain ⟨tail, htail⟩ := hwords
      rw [List.map_cons, List.cons_append] at htail
      refine ⟨?_, tail, ?_⟩
      · rw [← List.head?_drop, ← htail]
        rfl
      · rw [← List.tail_drop, ← htail]
        rfl
    refine (does_fetch_typed hm.typed hword).bind fun w m₁ h => ?_
    obtain ⟨rfl, htyped, halike⟩ := h
    have hm₁ : Capturing m₁ W ⟨S, g, a.goTo (a.frame.ip + 1) :: rest⟩ T :=
      ⟨htyped, by rw [halike.heap, halike.openUpvalues]; exact hm.lists⟩
    have hkeeps₁ (x : Handle) : m₁.Keeps x ↔ m.Keeps x := by
      rw [Machine.Keeps, Machine.Keeps, halike.heap, halike.roots]
    rw [Capture.decode_encode]
    -- with the upvalue of this capture made, the others follow
    have hnext (r : Handle) (m₂ : Machine) (hr : ∃ V,
        Capturing m₂ V ⟨S, g, a.goTo (a.frame.ip + 1) :: rest⟩ T ∧ V r = some (.upvalue content) ∧
          m₂.Keeps r ∧ KeepsOn m₁ W m₂ V) :
        Does (captures cs.length (done.push r) m₂) fun rs m' =>
          ∃ V, Capturing m' V ⟨S, g, a.goTo (a.frame.ip + (capture :: cs).length) :: rest⟩ T ∧
            List.Forall₂ (fun r content => V r = some (.upvalue content)) rs.toList
              (made ++ content :: contents) ∧ KeepsOn m W m' V := by
      obtain ⟨V, hm₂, ht, hkeeps, hon⟩ := hr
      have hdone₂ : List.Forall₂ (fun r content => m₂.Keeps r ∧ V r = some (.upvalue content))
          (done.push r).toList (made ++ [content]) := by
        rw [Array.toList_push]
        refine List.rel_append (hdone.imp fun x s hx => ?_) (.cons ⟨hkeeps, ht⟩ .nil)
        exact hon x _ ((hkeeps₁ x).mpr hx.1) hx.2
      refine (ih (a := a.goTo (a.frame.ip + 1)) _ hm₂ hcontext hbase hrest hdone₂).imp
        fun rs m' h => ?_
      obtain ⟨V', hm', hrs, hon'⟩ := h
      refine ⟨V', ?_, ?_, fun x t hx ht => ?_⟩
      · have hip : a.frame.ip + (capture :: cs).length = a.frame.ip + 1 + cs.length := by
          rw [List.length_cons]
          omega
        rw [hip]
        exact hm'
      · rwa [List.append_assoc] at hrs
      · obtain ⟨hx, ht⟩ := hon x t ((hkeeps₁ x).mpr hx) ht
        exact hon' x t hx ht
    cases hc with
    | @slot j _ slot =>
      rw [if_pos rfl]
      refine (does_frame htyped).bind fun f m' h => ?_
      obtain ⟨rfl, rfl⟩ := h
      refine (does_captureSlot hm₁ ?_).bind hnext
      rw [← hown, List.getElem?_drop] at slot
      rw [← slot, ← hbase]
      rfl
    | variable_ variable_ =>
      rw [← hcontext] at variable_
      rw [if_neg Bool.false_ne_true]
      refine (does_frameUpvalue (c := content) htyped variable_).bind fun r m' h => hnext r m' ?_
      obtain ⟨rfl, ht, hkeeps⟩ := h
      exact ⟨W, hm₁, ht, hkeeps, fun x t hx ht => ⟨hx, ht⟩⟩

/-- Making a closure puts it in a slot that it may have captured itself. -/
theorem does_makeClosure {k : UInt16} {cs : List Capture} {contents : List Content}
    {below own : List Slot} {x : Slot} (hm : m.Shows W ⟨below ++ own, g, a :: rest⟩)
    (hbase : a.frame.base = below.length)
    (hfunction : a.context.constants[k.toNat]? = some (some (.function contents)))
    (hfits : Slot.aClosure.Fits x)
    (hcs : List.Forall₂ (Captures a.context (own ++ [x])) cs contents)
    (hwords : cs.map Capture.encode <+: a.layout.words.drop a.frame.ip) :
    Does (makeClosure k m) fun _ m' => ∃ V,
      m'.Shows V ⟨below ++ (own ++ [x]), g, a.goTo (a.frame.ip + cs.length) :: rest⟩ := by
  have hcapturing : Capturing m W ⟨below ++ own, g, a :: rest⟩ (below ++ (own ++ [x])) :=
    ⟨hm.toTyped, hm.lists.keep (by rw [← List.append_assoc]; exact .append _ _)⟩
  refine (does_constantHandle hm hfunction).bind fun function m' h => ?_
  obtain ⟨rfl, ht, hkeeps⟩ := h
  obtain ⟨f, hf, -, hd⟩ := hm.fits.prototype ht
  refine does_bind_ok (readHeap_eq hf) ?_
  have hcount : f.upvalueCount = cs.length := by
    cases hd with
    | function _ _ code => exact code.captures.symm.trans hcs.length_eq.symm
  rw [hcount]
  refine (does_captures #[] hcapturing rfl hbase (List.drop_left) hcs hwords .nil).bind
    fun rs m₁ h => ?_
  obtain ⟨V, hm₁, hrs, hon⟩ := h
  have hdescribes : V.Describes .closure (.closure ⟨function, rs⟩) :=
    .closure (hon function _ hkeeps ht).2 hrs
  refine (does_alloc_raw hm₁.typed hm₁.lists hdescribes (by simp)).bind fun r m₂ h => ?_
  obtain ⟨h', V', rfl, ha⟩ := h
  have hlists : V'.Lists h' (below ++ (own ++ [x])) m₁.openUpvalues := by
    refine hm₁.lists.carry ha.kept
      (fun y hy => Machine.mem_roots.mpr (.inr (.inr (.inl hy)))) fun y j hj => ha.old y _ hj ?_
    rintro rfl
    cases ha.new.symm.trans hj
  have htyped := hm₁.typed.carry ha.kept ha.sound m₁.openUpvalues
  have hclosure : V'.Holds (.ofHandle r) .closure :=
    ⟨r, Value.toHandle?_ofHandle r, ha.type⟩
  refine ⟨V', { htyped with stack := ?_ }, hlists⟩
  rw [Array.toList_push, ← List.append_assoc]
  exact List.rel_append htyped.stack (.cons (hclosure.fits hfits.content) .nil)

/-! ### Captured variables at work -/

/-- A captured variable is as its upvalue says. -/
theorem does_readUpvalue (hm : m.Shows W O) (ht : W r = some (.upvalue c)) :
    Does (readUpvalue r m) fun v m' => m' = m ∧ W.Holds v c := by
  obtain ⟨u, hu, hobject, hcase⟩ := hm.fits.upvalue ht
  refine does_bind_ok (readHeap_eq hu) ?_
  rcases hcase with ⟨j, rfl⟩ | ⟨v, rfl, hv⟩
  · obtain ⟨c', ht', hslot⟩ := hm.lists.slot r (hm.lists.all r j hobject) j hobject
    obtain rfl : c = c' := by simpa [ht] using ht'
    exact does_readSlot hm hslot
  · exact ⟨rfl, hv⟩

/-- A captured variable is written with what it may hold. -/
theorem does_writeUpvalue (hm : m.Shows W O) (ht : W r = some (.upvalue c)) (hv : W.Holds v c) :
    Does (writeUpvalue r v m) fun _ m' => m'.Shows W O := by
  obtain ⟨u, hu, hobject, hcase⟩ := hm.fits.upvalue ht
  refine does_bind_ok (readHeap_eq hu) ?_
  rcases hcase with ⟨j, rfl⟩ | ⟨old, rfl, -⟩
  · obtain ⟨c', ht', hslot⟩ := hm.lists.slot r (hm.lists.all r j hobject) j hobject
    obtain rfl : c = c' := by simpa [ht] using ht'
    exact does_writeSlot hm hslot hv
  · have hset : m.heap.setUpvalue r (.closed v) = .ok (m.heap.replace r (.upvalue (.closed v))) := by
      rw [Heap.setUpvalue, hu]
      rfl
    show Does (changeHeap (fun heap => do
      let heap ← heap.setUpvalue r (.closed v)
      return ((), heap)) m) fun _ m' => m'.Shows W O
    rw [changeHeap_eq (b := ()) (by rw [hset]; rfl)]
    obtain ⟨htyped, hreplaced⟩ := hm.toTyped.replace hobject ht (.closedUpvalue hv) (by simp)
      (by simp) (by simp) m.openUpvalues
    refine ⟨htyped, hm.lists.congr fun x j => ?_⟩
    rw [Heap.StandsFor, Heap.StandsFor, hreplaced]
    split
    · next hx =>
      rw [hx, hobject]
      simp
    · rfl

/-! ### Closing -/

/-- Closing upvalues one by one gives each the value of its slot. -/
theorem closeEach_eq {rs : List Handle} (hm : m.Typed W O) (hnodup : rs.Nodup)
    (hrs : ∀ r ∈ rs, ∃ j c, m.heap.StandsFor r j ∧ W r = some (.upvalue c) ∧
      O.slots[j]? = some ⟨c, true⟩) : ∃ h', closeEach rs m = .ok () { m with heap := h' } ∧
      { m with heap := h' }.Typed W O ∧ m.heap.Closes m.stack rs h' := by
  induction rs generalizing m with
  | nil => exact ⟨m.heap, rfl, hm, by simp, fun _ _ => rfl⟩
  | cons r rs ih =>
    obtain ⟨hr, hnodup⟩ := List.nodup_cons.mp hnodup
    obtain ⟨⟨j, c, hstands, ht, hslot⟩, hrs⟩ := List.forall_mem_cons.mp hrs
    obtain ⟨v, hv, hholds⟩ := exists_value hm hslot
    obtain ⟨htyped, hobject⟩ := hm.replace hstands ht (.closedUpvalue hholds) (by simp) (by simp)
      (by simp) m.openUpvalues
    have hread : readSlot j m = .ok v m := by
      rw [readSlot]
      simp only [hv]
    have hset : m.heap.setUpvalue r (.closed v) = .ok (m.heap.replace r (.upvalue (.closed v))) := by
      simp only [Heap.setUpvalue, Heap.upvalue, Heap.object, show m.heap.object? r = _ from hstands]
      rfl
    have hchange : changeHeap (fun heap => do
        let heap ← heap.setUpvalue r (.closed v)
        return ((), heap)) m = .ok () { m with heap := m.heap.replace r (.upvalue (.closed v)) } :=
      changeHeap_eq (by rw [hset]; rfl)
    have hkept (x : Handle) (hx : x ∈ rs) :
        (m.heap.replace r (.upvalue (.closed v))).object? x = m.heap.object? x := by
      have hne : x ≠ r := fun heq => hr (heq ▸ hx)
      rw [hobject, if_neg hne]
    obtain ⟨h', heq, htyped', hcloses⟩ := ih htyped hnodup fun x hx => by
      obtain ⟨i, c', hi, hrest⟩ := hrs x hx
      exact ⟨i, c', (hkept x hx).trans hi, hrest⟩
    refine ⟨h', ?_, htyped', List.forall_mem_cons.mpr ⟨⟨j, v, hstands, hv, ?_⟩, fun x hx => ?_⟩,
      fun x hx => ?_⟩
    · rw [closeEach, bind_eq (readHeap_eq (f := (·.openSlot r)) hstands.openSlot), bind_eq hread,
        bind_eq hchange, heq]
    · rw [hcloses.kept r hr, hobject, if_pos rfl]
    · obtain ⟨i, u, hi, hu, hclosed⟩ := hcloses.closed x hx
      exact ⟨i, u, (hkept x hx).symm.trans hi, hu, hclosed⟩
    · obtain ⟨hne, hx⟩ := not_or.mp (mt List.mem_cons.mpr hx)
      rw [hcloses.kept x hx, hobject, if_neg hne]

/-- Closing from a boundary on closes the upvalues of the slots from there on, and keeps the others
listed. -/
theorem closeUpvalues_eq (boundary : Nat) (hm : m.Shows W O) : ∃ h' upper lower,
    closeUpvalues boundary m = .ok () { m with heap := h', openUpvalues := lower } ∧
      { m with heap := h', openUpvalues := lower }.Typed W O ∧
      m.heap.Split boundary m.openUpvalues upper lower ∧ m.heap.Closes m.stack upper h' := by
  obtain ⟨js, hrs, hsorted⟩ := hm.lists.ordered
  obtain ⟨upper, lower, heq, hsplit⟩ := Heap.splitOpen_eq boundary hrs hsorted []
  rw [List.append_nil] at heq
  have hnodup : upper.reverse.Nodup :=
    List.nodup_reverse.mpr (List.nodup_append.mp (hsplit.whole ▸ hm.lists.nodup)).1
  obtain ⟨h', hclose, htyped, hcloses⟩ := closeEach_eq hm.toTyped hnodup fun r hr => by
    obtain ⟨j, hj, -⟩ := hsplit.upper r (List.mem_reverse.mp hr)
    have hmem : r ∈ m.openUpvalues := hsplit.whole ▸ List.mem_append_left _ (List.mem_reverse.mp hr)
    obtain ⟨c, ht, hslot⟩ := hm.lists.slot r hmem j hj
    exact ⟨j, c, hj, ht, hslot⟩
  refine ⟨h', upper, lower, ?_, { htyped with }, hsplit,
    fun r hr => hcloses.closed r (List.mem_reverse.mpr hr),
    fun x hx => hcloses.kept x fun hx' => hx (List.mem_reverse.mp hx')⟩
  have hlook : look Machine.openUpvalues m = .ok m.openUpvalues m := rfl
  rw [closeUpvalues, bind_eq hlook,
    bind_eq (readHeap_eq (f := (·.splitOpen boundary [] m.openUpvalues)) heq)]
  dsimp only
  rw [bind_eq hclose]
  rfl

end Exec

end ScriptMachine

namespace ScriptMachine

/-- `m'` has the stack and the objects of `m`. -/
structure Machine.Unmoved (m m' : Machine) : Prop where
  stack : m'.stack = m.stack
  objects : ∀ x, m'.heap.object? x = m.heap.object? x

/-- `m'` is `m` with the upvalues closed from a boundary on: these keep the values that were read
through them, the others stand for their slots as before, and none stands for another slot. -/
structure Machine.ClosedFrom (boundary : Nat) (m m' : Machine) : Prop where
  closed : ∀ r j, m.heap.StandsFor r j → boundary ≤ j →
    ∃ v, m'.heap.object? r = some (.upvalue (.closed v))
  others : ∀ r j, m.heap.StandsFor r j → j < boundary → m'.heap.StandsFor r j
  opened : ∀ r j, m'.heap.StandsFor r j → m.heap.StandsFor r j
  reads : ∀ r v, Exec.readUpvalue r m = .ok v m → Exec.readUpvalue r m' = .ok v m'

namespace Exec

variable {α β : Type} {m m' : Machine} {W : World} {O : Outline} {r : Handle} {v : Value}
  {boundary : Nat}

/-- Where two steps in sequence succeed, each does. -/
theorem exists_of_bind_ok {x : Exec α} {f : α → Exec β} {b : β}
    (hdone : (x >>= f) m = .ok b m') : ∃ a m₁, x m = .ok a m₁ ∧ f a m₁ = .ok b m' := by
  rw [show (x >>= f) m = EStateM.bind x f m from rfl, EStateM.bind] at hdone
  split at hdone
  · next a m₁ hx => exact ⟨a, m₁, hx, hdone⟩
  · cases hdone

/-- What is read through an upvalue: its own value, or the value of the slot that it stands for. -/
theorem readUpvalue_eq_iff : readUpvalue r m = .ok v m ↔
    m.heap.object? r = some (.upvalue (.closed v)) ∨
      ∃ j, m.heap.StandsFor r j ∧ m.stack[j]? = some v := by
  constructor
  · intro hread
    obtain ⟨u, m₁, hu, hread⟩ := exists_of_bind_ok hread
    unfold readHeap at hu
    split at hu
    · next u' hupvalue =>
      obtain ⟨rfl, rfl⟩ := EStateM.Result.ok.inj hu
      have hobject := Heap.object?_of_upvalue hupvalue
      cases u' with
      | onStack j =>
        refine .inr ⟨j, hobject, ?_⟩
        change readSlot j m = .ok v m at hread
        unfold readSlot at hread
        split at hread
        · next hget =>
          obtain ⟨rfl, -⟩ := EStateM.Result.ok.inj hread
          exact hget
        · cases hread
      | closed v' =>
        obtain ⟨rfl, -⟩ := EStateM.Result.ok.inj hread
        exact .inl hobject
    · cases hu
  · rintro (hobject | ⟨j, hstands, hget⟩)
    · have hu : m.heap.upvalue r = .ok (.closed v) := by
        simp only [Heap.upvalue, Heap.object, hobject]
      exact bind_eq (readHeap_eq (f := (·.upvalue r)) hu)
    · have hobject : m.heap.object? r = some (.upvalue (.onStack j)) := hstands
      have hu : m.heap.upvalue r = .ok (.onStack j) := by
        simp only [Heap.upvalue, Heap.object, hobject]
      refine (bind_eq (readHeap_eq (f := (·.upvalue r)) hu)).trans ?_
      show readSlot j m = _
      rw [readSlot]
      simp only [hget]

end Exec

namespace Machine

variable {m m₁ m' : Machine} {W : World} {S : List Slot} {boundary : Nat}

/-- What does not move twice does not move. -/
theorem Unmoved.trans (h : m.Unmoved m₁) (h' : m₁.Unmoved m') : m.Unmoved m' :=
  ⟨h'.stack.trans h.stack, fun x => (h'.objects x).trans (h.objects x)⟩

/-- Through an upvalue the same is read. -/
theorem Unmoved.reads {r : Handle} {v : Value} (h : m.Unmoved m')
    (hread : Exec.readUpvalue r m = .ok v m) : Exec.readUpvalue r m' = .ok v m' := by
  rw [Exec.readUpvalue_eq_iff] at hread ⊢
  simpa only [Heap.StandsFor, h.stack, h.objects] using hread

/-- Closing may come later. -/
theorem ClosedFrom.after (h : ClosedFrom boundary m₁ m') (hm : m.Unmoved m₁) :
    ClosedFrom boundary m m' := by
  have hstands (r : Handle) (j : Nat) : m.heap.StandsFor r j ↔ m₁.heap.StandsFor r j := by
    rw [Heap.StandsFor, Heap.StandsFor, hm.objects]
  exact
    { closed := fun r j hj => h.closed r j ((hstands r j).mp hj)
      others := fun r j hj => h.others r j ((hstands r j).mp hj)
      opened := fun r j hj => (hstands r j).mpr (h.opened r j hj)
      reads := fun r v hread => h.reads r v (hm.reads hread) }

/-- Closing the upvalues of the slots from a boundary on, with the slots below it kept. -/
theorem closedFrom {upper lower : List Handle} (hl : W.Lists m.heap S m.openUpvalues)
    (hsplit : m.heap.Split boundary m.openUpvalues upper lower)
    (hcloses : m.heap.Closes m.stack upper m'.heap)
    (hstack : ∀ j, j < boundary → m'.stack[j]? = m.stack[j]?) : ClosedFrom boundary m m' := by
  have hupper (r : Handle) (j : Nat) (hj : m.heap.StandsFor r j) (hle : boundary ≤ j) :
      r ∈ upper := by
    have hmem := hl.all r j hj
    rw [hsplit.whole, List.mem_append] at hmem
    refine hmem.resolve_right fun hlower => ?_
    obtain ⟨i, hi, hlt⟩ := hsplit.lower r hlower
    rw [hi.inj hj] at hlt
    omega
  have hlower (r : Handle) (j : Nat) (hj : m.heap.StandsFor r j) (hlt : j < boundary) :
      r ∉ upper := fun hmem => by
    obtain ⟨i, hi, hle⟩ := hsplit.upper r hmem
    rw [hi.inj hj] at hle
    omega
  refine
    { closed := fun r j hj hle => ?_
      others := fun r j hj hlt => ?_
      opened := fun r j hj => ?_
      reads := fun r v hread => ?_ }
  · obtain ⟨-, v, -, -, hclosed⟩ := hcloses.closed r (hupper r j hj hle)
    exact ⟨v, hclosed⟩
  · exact (hcloses.kept r (hlower r j hj hlt)).trans hj
  · by_cases hr : r ∈ upper
    · obtain ⟨-, v, -, -, hclosed⟩ := hcloses.closed r hr
      cases hclosed.symm.trans hj
    · exact (hcloses.kept r hr).symm.trans hj
  · rw [Exec.readUpvalue_eq_iff] at hread ⊢
    rcases hread with hclosed | ⟨j, hj, hget⟩
    · refine .inl ((hcloses.kept r fun hr => ?_).trans hclosed)
      obtain ⟨j, -, hj, -, -⟩ := hcloses.closed r hr
      cases hclosed.symm.trans hj
    · rcases Nat.lt_or_ge j boundary with hlt | hle
      · exact .inr ⟨j, (hcloses.kept r (hlower r j hj hlt)).trans hj, (hstack j hlt).trans hget⟩
      · obtain ⟨i, v', hi, hget', hclosed⟩ := hcloses.closed r (hupper r j hj hle)
        rw [hi.inj hj, hget, Option.some.injEq] at hget'
        exact .inl (hget' ▸ hclosed)

end Machine

end ScriptMachine
