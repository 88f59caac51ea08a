import ScriptMachine.Bytecode.Instr
import Mathlib.Data.List.Forall2

/-!
# Shapes of the stack

What the code of a function relies on at one offset: for each slot of its part of the stack, what
the value in it is known to be and whether an upvalue may stand for the slot, and which global is
known to hold a class. Knowing less is always sound, so shapes are ordered by how much they say.
-/

namespace ScriptMachine

/-- Two relations between the entries of lists, one after the other. -/
theorem forall₂_comp {α β γ : Type} {R : α → β → Prop} {S : β → γ → Prop} {T : α → γ → Prop}
    {as : List α} {bs : List β} {cs : List γ} (h : List.Forall₂ R as bs)
    (h' : List.Forall₂ S bs cs) (himp : ∀ a b c, R a b → S b c → T a c) : List.Forall₂ T as cs := by
  induction h generalizing cs with
  | nil =>
    cases h'
    exact .nil
  | cons hab _ ih =>
    cases h' with
    | cons hbc htail => exact .cons (himp _ _ _ hab hbc) (ih htail)

/-- An entry of the first list has a related one in the second. -/
theorem exists_of_mem_left {α β : Type} {R : α → β → Prop} {as : List α} {bs : List β} {a : α}
    (h : List.Forall₂ R as bs) (ha : a ∈ as) : ∃ b ∈ bs, R a b := by
  induction h with
  | nil => cases ha
  | @cons x y _ _ hxy _ ih =>
    rcases List.mem_cons.mp ha with rfl | ha
    · exact ⟨y, List.mem_cons_self, hxy⟩
    · obtain ⟨b, hb, hab⟩ := ih ha
      exact ⟨b, List.mem_cons_of_mem _ hb, hab⟩

/-- An entry of the second list has a related one in the first. -/
theorem exists_of_mem_right {α β : Type} {R : α → β → Prop} {as : List α} {bs : List β} {b : β}
    (h : List.Forall₂ R as bs) (hb : b ∈ bs) : ∃ a ∈ as, R a b :=
  exists_of_mem_left h.flip hb

/-- What a value is known to be. -/
inductive Content
  | any
  | class_
  | closure
deriving DecidableEq

/-- A value known to be `c` serves where one known to be `d` is asked for. -/
def Content.Fits (c d : Content) : Prop := d = .any ∨ c = d

/-- Every content fits itself. -/
@[refl] theorem Content.Fits.refl (c : Content) : c.Fits c := .inr rfl

/-- Every content fits where anything may be. -/
theorem Content.fits_any (c : Content) : c.Fits .any := .inl rfl

/-- Fitting twice is fitting. -/
theorem Content.Fits.trans {a b c : Content} (hab : a.Fits b) (hbc : b.Fits c) : a.Fits c := by
  rcases hbc with rfl | rfl
  · exact fits_any a
  · exact hab

/-- A slot of the stack: what is in it, and whether an upvalue may stand for it. -/
structure Slot where
  content : Content
  captured : Bool
deriving DecidableEq

namespace Slot

/-- The slot of a temporary value. -/
def value : Slot := ⟨.any, false⟩

/-- The slot of a temporary value that is a class. -/
def aClass : Slot := ⟨.class_, false⟩

/-- The slot of a temporary value that is a closure. -/
def aClosure : Slot := ⟨.closure, false⟩

/-- A slot as `a` says serves where one as `b` says is asked for. What is known of a slot that an
upvalue may stand for is not forgotten, because the upvalue is known by it. -/
structure Fits (a b : Slot) : Prop where
  content : a.content.Fits b.content
  captured : a.captured = true → b = a

/-- Every slot fits itself. -/
@[refl] theorem Fits.refl (a : Slot) : a.Fits a := ⟨.refl _, fun _ => rfl⟩

/-- Fitting twice is fitting. -/
theorem Fits.trans {a b c : Slot} (hab : a.Fits b) (hbc : b.Fits c) : a.Fits c :=
  ⟨hab.content.trans hbc.content, fun ha => by
    have hb := hab.captured ha
    exact (hbc.captured (hb ▸ ha)).trans hb⟩

/-- `b` is `a`, except that an upvalue may stand for it by now. -/
structure Upgrade (a b : Slot) : Prop where
  content : a.content = b.content
  captured : a.captured = true → b.captured = true

/-- Every slot upgrades to itself. -/
@[refl] theorem Upgrade.refl (a : Slot) : a.Upgrade a := ⟨rfl, id⟩

/-- Upgrading twice is upgrading. -/
theorem Upgrade.trans {a b c : Slot} (hab : a.Upgrade b) (hbc : b.Upgrade c) : a.Upgrade c :=
  ⟨hab.content.trans hbc.content, hbc.captured ∘ hab.captured⟩

end Slot

/-- Slot by slot, `S` serves where `T` is asked for. -/
abbrev SlotsFit (S T : List Slot) : Prop := List.Forall₂ Slot.Fits S T

/-- Slot by slot, `T` is `S` but for captures made since. -/
abbrev SlotsUpgrade (S T : List Slot) : Prop := List.Forall₂ Slot.Upgrade S T

/-- All slots fit themselves. -/
theorem SlotsFit.refl (S : List Slot) : SlotsFit S S := List.forall₂_same.mpr fun a _ => .refl a

/-- Fitting twice is fitting, slot by slot. -/
theorem SlotsFit.trans {S T U : List Slot} (hst : SlotsFit S T) (htu : SlotsFit T U) :
    SlotsFit S U := forall₂_comp hst htu fun _ _ _ => Slot.Fits.trans

/-- Slots fit below and above. -/
theorem SlotsFit.append {S T S' T' : List Slot} (h : SlotsFit S T) (h' : SlotsFit S' T') :
    SlotsFit (S ++ S') (T ++ T') := List.rel_append h h'

/-- All slots upgrade to themselves. -/
theorem SlotsUpgrade.refl (S : List Slot) : SlotsUpgrade S S :=
  List.forall₂_same.mpr fun a _ => .refl a

/-- Upgrading twice is upgrading, slot by slot. -/
theorem SlotsUpgrade.trans {S T U : List Slot} (hst : SlotsUpgrade S T) (htu : SlotsUpgrade T U) :
    SlotsUpgrade S U := forall₂_comp hst htu fun _ _ _ => Slot.Upgrade.trans

/-- A slot keeps its content when it becomes captured. -/
theorem SlotsUpgrade.slot {S T : List Slot} {i : Nat} {a : Slot} (h : SlotsUpgrade S T)
    (ha : S[i]? = some a) : ∃ b, T[i]? = some b ∧ a.Upgrade b := by
  obtain ⟨hlt, rfl⟩ := List.getElem?_eq_some_iff.mp ha
  have hlt' : i < T.length := h.length_eq ▸ hlt
  exact ⟨T[i], List.getElem?_eq_getElem hlt', (List.forall₂_iff_get.mp h).2 i hlt hlt'⟩

/-- The slot on top keeps its content too. -/
theorem SlotsUpgrade.concat {S T : List Slot} {a : Slot} (h : SlotsUpgrade (S ++ [a]) T) :
    ∃ S' x, T = S' ++ [x] ∧ SlotsUpgrade S S' ∧ a.Upgrade x := by
  have hsplit : T = T.take S.length ++ T.drop S.length := (List.take_append_drop _ _).symm
  have hlow : SlotsUpgrade S (T.take S.length) := by
    have := List.forall₂_take S.length h
    rwa [List.take_left] at this
  have hhigh : SlotsUpgrade [a] (T.drop S.length) := by
    have := List.forall₂_drop S.length h
    rwa [List.drop_left] at this
  cases hdrop : T.drop S.length with
  | nil => rw [hdrop] at hhigh; cases hhigh
  | cons x rest =>
    rw [hdrop] at hhigh
    cases hhigh with
    | cons hx hrest =>
      cases hrest
      exact ⟨T.take S.length, x, hdrop ▸ hsplit, hlow, hx⟩

/-- What is known where an instruction starts: the slots from the function's own first one up,
and a global that holds a class. -/
structure Shape where
  slots : List Slot
  known : Option String

namespace Shape

/-- The shape of some slots without knowledge of a global. -/
abbrev plain (S : List Slot) : Shape := ⟨S, none⟩

/-- A stack of shape `A` serves where one of shape `B` is asked for. -/
structure Fits (A B : Shape) : Prop where
  slots : SlotsFit A.slots B.slots
  known : B.known = none ∨ A.known = B.known

/-- Every shape fits itself. -/
@[refl] theorem Fits.refl (A : Shape) : A.Fits A := ⟨.refl _, .inr rfl⟩

/-- Fitting twice is fitting. -/
theorem Fits.trans {A B C : Shape} (hab : A.Fits B) (hbc : B.Fits C) : A.Fits C := by
  refine ⟨hab.slots.trans hbc.slots, ?_⟩
  rcases hbc.known with h | h
  · exact .inl h
  · rcases hab.known with h' | h'
    · exact .inl (h ▸ h')
    · exact .inr (h'.trans h)

/-- Slots that fit serve where no global has to be known. -/
theorem fits_plain {S T : List Slot} {g : Option String} (h : SlotsFit S T) :
    Fits ⟨S, g⟩ (plain T) := ⟨h, .inl rfl⟩

end Shape

/-- What an object on the heap is known to be: a text, by its content; a function, by what its
captured variables hold; an upvalue, by what its variable holds. -/
inductive ObjectType
  | text (chars : String)
  | native
  | function (captures : List Content)
  | closure
  | upvalue (content : Content)
  | class_
  | instance_
  | boundMethod

/-- What a function's code may refer to beside the stack: its constants, by what is known of the
objects they refer to, and its captured variables. -/
structure CodeContext where
  constants : List (Option ObjectType)
  captures : List Content

namespace CodeContext

/-- The constant `k` is a text with the given content. -/
def Names (Γ : CodeContext) (k : UInt16) (chars : String) : Prop :=
  Γ.constants[k.toNat]? = some (some (.text chars))

/-- `Δ` is `Γ` with more constants and captures. -/
structure Le (Γ Δ : CodeContext) : Prop where
  constants : Γ.constants <+: Δ.constants
  captures : Γ.captures <+: Δ.captures

/-- Every context is at most itself. -/
@[refl] theorem Le.refl (Γ : CodeContext) : Γ.Le Γ := ⟨List.prefix_rfl, List.prefix_rfl⟩

/-- Growing twice is growing. -/
theorem Le.trans {Γ Δ Ε : CodeContext} (h : Γ.Le Δ) (h' : Δ.Le Ε) : Γ.Le Ε :=
  ⟨h.constants.trans h'.constants, h.captures.trans h'.captures⟩

end CodeContext

end ScriptMachine
