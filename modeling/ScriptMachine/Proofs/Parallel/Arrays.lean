import Mathlib.Data.List.Forall2
import Mathlib.Data.Option.Basic

/-!
# Lists and arrays related entry by entry

The stack, the frames and the tables of two machines are compared entry by entry. Whatever is done
to both sides at the same place leaves them related.
-/

namespace ScriptMachine

/-- Lists that are related entry by entry are so at each index. -/
theorem forall₂_getElem? {α β : Type} {R : α → β → Prop} {as : List α} {bs : List β}
    (h : List.Forall₂ R as bs) (i : Nat) : Option.Rel R as[i]? bs[i]? := by
  induction h generalizing i with
  | nil => exact .none
  | cons hab _ ih =>
    cases i with
    | zero => exact .some hab
    | succ i => exact ih i

/-- Related lists stay so when related entries are put at one index. -/
theorem forall₂_set {α β : Type} {R : α → β → Prop} {as : List α} {bs : List β} {a : α} {b : β}
    (h : List.Forall₂ R as bs) (i : Nat) (hab : R a b) : List.Forall₂ R (as.set i a) (bs.set i b) := by
  induction h generalizing i with
  | nil => exact .nil
  | cons hhead hrest ih =>
    cases i with
    | zero => exact .cons hab hrest
    | succ i => exact .cons hhead (ih i)

variable {α β : Type} {R : Nat → α → β → Prop} {as : Array α} {bs : Array β} {a : α} {b : β}

/-- Arrays that are related entry by entry. How entries have to be related may depend on the
index. -/
def Alongside (R : Nat → α → β → Prop) (as : Array α) (bs : Array β) : Prop :=
  ∀ i : Nat, Option.Rel (R i) as[i]? bs[i]?

/-- Empty arrays are alongside. -/
theorem alongside_empty : Alongside R #[] #[] := fun _ => .none

/-- Arrays that are alongside by more are so by less. -/
theorem Alongside.imp {R' : Nat → α → β → Prop} (h : Alongside R as bs)
    (himp : ∀ i, ∀ a ∈ as, ∀ b ∈ bs, R i a b → R' i a b) : Alongside R' as bs := by
  intro i
  have hi := h i
  cases ha : as[i]? with
  | none =>
    cases hb : bs[i]? with
    | none => exact .none
    | some b =>
      rw [ha, hb] at hi
      cases hi
  | some a =>
    cases hb : bs[i]? with
    | none =>
      rw [ha, hb] at hi
      cases hi
    | some b =>
      rw [ha, hb] at hi
      cases hi with
      | some hab =>
        exact .some (himp i a (Array.mem_of_getElem? ha) b (Array.mem_of_getElem? hb) hab)

/-- Arrays are alongside from the other side. -/
theorem Alongside.flip (h : Alongside R as bs) : Alongside (fun i b a => R i a b) bs as := by
  intro i
  have hi := h i
  generalize as[i]? = a at hi
  generalize bs[i]? = b at hi
  cases hi with
  | none => exact .none
  | some hab => exact .some hab

/-- Arrays alongside have one size. -/
theorem Alongside.size (h : Alongside R as bs) : as.size = bs.size := by
  rcases Nat.lt_trichotomy as.size bs.size with hlt | heq | hlt
  · have hi := h as.size
    rw [Array.getElem?_eq_none (Nat.le_refl _), Array.getElem?_eq_getElem hlt] at hi
    cases hi
  · exact heq
  · have hi := h bs.size
    rw [Array.getElem?_eq_none (Nat.le_refl bs.size), Array.getElem?_eq_getElem hlt] at hi
    cases hi

/-- Entries at one index are related. -/
theorem Alongside.rel (h : Alongside R as bs) {i : Nat} (ha : as[i]? = some a)
    (hb : bs[i]? = some b) : R i a b := by
  have hi := h i
  rw [ha, hb] at hi
  cases hi with
  | some hab => exact hab

/-- Every element has one alongside. -/
theorem Alongside.mem (h : Alongside R as bs) (ha : a ∈ as) : ∃ i, ∃ b ∈ bs, R i a b := by
  obtain ⟨i, hi⟩ := Array.mem_iff_getElem?.mp ha
  have hrel := h i
  rw [hi] at hrel
  cases hb : bs[i]? with
  | none =>
    rw [hb] at hrel
    cases hrel
  | some b =>
    rw [hb] at hrel
    cases hrel with
    | some hab => exact ⟨i, b, Array.mem_of_getElem? hb, hab⟩

/-- Related elements are pushed. -/
theorem Alongside.push (h : Alongside R as bs) (hab : R as.size a b) :
    Alongside R (as.push a) (bs.push b) := by
  intro i
  rw [Array.getElem?_push, Array.getElem?_push, h.size]
  split
  · next hi => exact .some (by rwa [hi, ← h.size])
  · exact h i

/-- The last elements are taken. -/
theorem Alongside.pop (h : Alongside R as bs) : Alongside R as.pop bs.pop := by
  intro i
  rw [Array.getElem?_pop, Array.getElem?_pop, h.size]
  split
  · exact h i
  · exact .none

/-- What is left of an array was in it. -/
theorem mem_of_mem_pop (ha : a ∈ as.pop) : a ∈ as := by
  obtain ⟨i, hi⟩ := Array.mem_iff_getElem?.mp ha
  rw [Array.getElem?_pop] at hi
  split at hi
  · exact Array.mem_of_getElem? hi
  · cases hi

/-- The last elements are related. -/
theorem Alongside.back? (h : Alongside R as bs) :
    Option.Rel (R (as.size - 1)) as.back? bs.back? := by
  rw [Array.back?_eq_getElem?, Array.back?_eq_getElem?, ← h.size]
  exact h _

/-- Related elements are set in the same place. -/
theorem Alongside.set (h : Alongside R as bs) (i : Nat) (hab : R i a b) :
    Alongside R (as.setIfInBounds i a) (bs.setIfInBounds i b) := by
  intro j
  rw [Array.getElem?_setIfInBounds, Array.getElem?_setIfInBounds, h.size]
  split
  · next hij =>
    split
    · exact .some (hij ▸ hab)
    · exact .none
  · exact h j

/-- Arrays alongside are cut to one size. -/
theorem Alongside.shrink (h : Alongside R as bs) (k : Nat) :
    Alongside R (as.shrink k) (bs.shrink k) := by
  intro j
  rw [Array.shrink_eq_take, Array.shrink_eq_take, Array.getElem?_extract, Array.getElem?_extract,
    h.size, Nat.zero_add]
  split
  · exact h _
  · exact .none

/-- The elements in one place are changed alike. -/
theorem Alongside.modify {f : α → α} {g : β → β} (h : Alongside R as bs) (i : Nat)
    (hfg : ∀ a b, as[i]? = some a → bs[i]? = some b → R i a b → R i (f a) (g b)) :
    Alongside R (as.modify i f) (bs.modify i g) := by
  intro j
  rw [Array.getElem?_modify, Array.getElem?_modify]
  split
  · next hij =>
    subst hij
    have hi := h i
    generalize ha : as[i]? = a at hi
    generalize hb : bs[i]? = b at hi
    cases hi with
    | none => exact .none
    | some hab => exact .some (hfg _ _ ha hb hab)
  · exact h j

/-- The entries as lists, where the index does not matter. -/
theorem Alongside.toList {S : α → β → Prop} (h : Alongside R as bs)
    (hS : ∀ i a b, R i a b → S a b) : List.Forall₂ S as.toList bs.toList := by
  refine List.forall₂_iff_get.mpr ⟨h.size, fun i hi hi' => ?_⟩
  simp only [List.get_eq_getElem, Array.getElem_toList]
  exact hS i _ _ (h.rel (Array.getElem?_eq_getElem _) (Array.getElem?_eq_getElem _))

/-- The entries from an index on. -/
theorem Alongside.toList_extract {S : α → β → Prop} (h : Alongside R as bs) (i k : Nat)
    (hS : ∀ j a b, i ≤ j → R j a b → S a b) :
    List.Forall₂ S (as.extract i k).toList (bs.extract i k).toList := by
  have hsize : (as.extract i k).size = (bs.extract i k).size := by
    rw [Array.size_extract, Array.size_extract, h.size]
  refine List.forall₂_iff_get.mpr ⟨hsize, fun j hj hj' => ?_⟩
  rw [Array.length_toList] at hj hj'
  simp only [List.get_eq_getElem, Array.getElem_toList, Array.getElem_extract]
  exact hS (i + j) _ _ (Nat.le_add_right i j) (h.rel (Array.getElem?_eq_getElem _) (Array.getElem?_eq_getElem _))

end ScriptMachine
