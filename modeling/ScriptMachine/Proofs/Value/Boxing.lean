import ScriptMachine.Proofs.Value.Numbers

/-!
# Boxing is faithful

A value is made from a pattern of binary64, from a truth value, from nothing, or from a handle. It is
known again as what it was made from and gives that back, except that every pattern that is not a
number is given back as the canonical one. Which patterns are not numbers, and which are equal as
numbers, is said of their fields: sign, exponent and fraction.
-/

namespace ScriptMachine

/-! ### Patterns by their fields -/

/-- The exponent of a pattern of binary64, with its bias. -/
def exponentField (p : UInt64) : Nat := p.toNat / 2 ^ 52 % 2 ^ 11

/-- The fraction of a pattern of binary64. -/
def fractionField (p : UInt64) : Nat := p.toNat % 2 ^ 52

/-- A pattern that is not a number has the highest exponent and some fraction. -/
def PatternIsNaN (p : UInt64) : Prop := exponentField p = 2 ^ 11 - 1 ∧ fractionField p ≠ 0

instance (p : UInt64) : Decidable (PatternIsNaN p) := inferInstanceAs (Decidable (_ ∧ _))

/-- A zero has neither exponent nor fraction, and either sign. -/
def PatternIsZero (p : UInt64) : Prop := exponentField p = 0 ∧ fractionField p = 0

/-- Two patterns stand for equal numbers: both are numbers, and they are one pattern or zeros. -/
def PatternsEqual (p q : UInt64) : Prop :=
  ¬ PatternIsNaN p ∧ ¬ PatternIsNaN q ∧ (p = q ∨ PatternIsZero p ∧ PatternIsZero q)

namespace Value

open Float.Model Float.Model.UnpackedFloat

variable {p q : UInt64}

/-- The test for a pattern of no number is right. -/
theorem isNaNPattern_iff : isNaNPattern p = true ↔ PatternIsNaN p := by
  refine ⟨fun h => ?_, fun ⟨hexponent, hfraction⟩ => ?_⟩
  · obtain ⟨hexponent, hfraction⟩ := fields_of_isNaNPattern h
    refine ⟨?_, hfraction⟩
    rw [exponentField]
    omega
  · have hand : (p &&& 0x7FFFFFFFFFFFFFFF).toNat = p.toNat % 2 ^ 63 := by
      rw [UInt64.toNat_and]
      exact Nat.and_two_pow_sub_one_eq_mod p.toNat 63
    refine decide_eq_true (UInt64.lt_iff_toNat_lt.mpr ?_)
    rw [hand, show (0x7FF0000000000000 : UInt64).toNat = 2047 * 2 ^ 52 by decide]
    rw [exponentField] at hexponent
    rw [fractionField] at hfraction
    omega

/-- The zeros are two patterns. -/
theorem patternIsZero_iff : PatternIsZero p ↔ p = 0 ∨ p = 0x8000000000000000 := by
  have hlt := p.toNat_lt
  rw [← UInt64.toNat_inj, ← UInt64.toNat_inj, PatternIsZero, exponentField, fractionField,
    show (0 : UInt64).toNat = 0 by decide,
    show (0x8000000000000000 : UInt64).toNat = 2 ^ 63 by decide]
  omega

/-- Patterns that are one, or zeros of different signs, are one or zeros. -/
theorem eq_or_zeros : p = q ∨ (p = 0 ∧ q = 0x8000000000000000 ∨ p = 0x8000000000000000 ∧ q = 0) ↔
    p = q ∨ PatternIsZero p ∧ PatternIsZero q := by
  rw [patternIsZero_iff, patternIsZero_iff]
  constructor
  · rintro (h | ⟨hp, hq⟩ | ⟨hp, hq⟩)
    · exact .inl h
    · exact .inr ⟨.inl hp, .inr hq⟩
    · exact .inr ⟨.inr hp, .inl hq⟩
  · rintro (h | ⟨rfl | rfl, rfl | rfl⟩)
    · exact .inl h
    · exact .inl rfl
    · exact .inr (.inl ⟨rfl, rfl⟩)
    · exact .inr (.inr ⟨rfl, rfl⟩)
    · exact .inl rfl

/-! ### Numbers and their patterns -/

/-- A pattern of a number is kept as it is. -/
theorem bits_ofPattern_of_not (h : ¬ PatternIsNaN p) : (ofPattern p).bits = p := by
  rw [ofPattern, if_neg (isNaNPattern_iff.not.mpr h)]

/-- A pattern of no number becomes the one that stands for all of them. -/
theorem bits_ofPattern_of_isNaN (h : PatternIsNaN p) : (ofPattern p).bits = canonicalNaN := by
  rw [ofPattern, if_pos (isNaNPattern_iff.mpr h)]

/-- The fields of a pattern are those that floating point reads. -/
theorem isNaNBits_iff : @isNaNBits Format.binary64 p.toBitVec = true ↔ PatternIsNaN p := by
  have hexponent : (@unpackExponent Format.binary64 p.toBitVec).toNat = exponentField p := by
    show p.toNat >>> 52 % 2 ^ 11 = p.toNat / 2 ^ 52 % 2 ^ 11
    rw [Nat.shiftRight_eq_div_pow]
  have hfraction : (@unpackMantissa Format.binary64 p.toBitVec).toNat = fractionField p := by
    show p.toNat >>> 0 % 2 ^ 52 = p.toNat % 2 ^ 52
    rw [Nat.shiftRight_zero]
  rw [isNaNBits, decide_eq_true_iff, PatternIsNaN, ← hexponent, ← hfraction, Ne, Ne,
    ← BitVec.toNat_inj, ← BitVec.toNat_inj]
  rfl

/-- A boxed pattern is one that numbers have. -/
theorem toBits_ofBits_ofPattern (p : UInt64) :
    (Float.ofBits (ofPattern p).bits).toBits = (ofPattern p).bits := by
  by_cases hp : PatternIsNaN p
  · rw [bits_ofPattern_of_isNaN hp]
    decide
  · rw [bits_ofPattern_of_not hp]
    have hround := @pack_unpack Format.binary64 p.toBitVec (by decide)
    rw [if_neg (isNaNBits_iff.not.mpr hp)] at hround
    exact UInt64.toBitVec_inj.mp hround

/-- Only patterns that are not numbers are boxed as the canonical one. -/
theorem bits_ofPattern_ne : (ofPattern p).bits ≠ canonicalNaN ↔ ¬ PatternIsNaN p := by
  refine ⟨fun h hp => h (bits_ofPattern_of_isNaN hp), fun hp h => hp ?_⟩
  rw [bits_ofPattern_of_not hp] at h
  rw [h]
  decide

/-- Floats are equal if they are numbers and have one pattern, or both are zeros. -/
theorem beq_iff_toBits (x y : Float) : (x == y) = true ↔
    x.toBits ≠ canonicalNaN ∧ y.toBits ≠ canonicalNaN ∧
      (x.toBits = y.toBits ∨ PatternIsZero x.toBits ∧ PatternIsZero y.toBits) := by
  have hnan : packedNaN Format.binary64 = canonicalNaN.toBitVec := by decide
  have hpositive : packedZero Format.binary64 .positive = (0 : UInt64).toBitVec := by decide
  have hnegative : packedZero Format.binary64 .negative = (0x8000000000000000 : UInt64).toBitVec := by
    decide
  have hbeq : (x == y) = true ↔ _ :=
    unpack_beq_unpack_iff x.toModel.valid y.toModel.valid (by decide)
  rw [hnan, hpositive, hnegative] at hbeq
  have hinj : ∀ b c : UInt64, b.toBitVec = c.toBitVec ↔ b = c := fun _ _ => UInt64.toBitVec_inj
  rw [Ne, Ne, hinj, hinj, hinj, hinj, hinj, hinj, hinj] at hbeq
  rw [hbeq, ← eq_or_zeros]
  rfl

/-- Boxed patterns are the same if they stand for equal numbers. -/
theorem same_ofPattern : (ofPattern p).same (ofPattern q) = true ↔ PatternsEqual p q := by
  rw [same, isNumber_ofPattern, isNumber_ofPattern, Bool.and_self, if_pos rfl, beq_iff_toBits,
    toBits_ofBits_ofPattern, toBits_ofBits_ofPattern, bits_ofPattern_ne, bits_ofPattern_ne]
  refine and_congr_right fun hp => and_congr_right fun hq => ?_
  rw [bits_ofPattern_of_not hp, bits_ofPattern_of_not hq]

/-- A truth value is no number, as it has all the bits of the tag. -/
theorem isNumber_of_isBool {v : Value} (h : v.isBool = true) : v.isNumber = false := by
  have hbits : v.bits ||| 1 = quiet ||| 3 := of_decide_eq_true h
  have hquiet : v.bits &&& quiet = quiet := by
    have hone : 1 &&& quiet = 0 := by decide
    have hall : (quiet ||| 3) &&& quiet = quiet := by decide
    calc v.bits &&& quiet = (v.bits &&& quiet) ||| (1 &&& quiet) := by rw [hone, UInt64.or_zero]
      _ = (v.bits ||| 1) &&& quiet := (UInt64.toBitVec_inj.mp BitVec.and_or_distrib_right).symm
      _ = quiet := by rw [hbits, hall]
  simp [isNumber, hquiet]

/-! ### Tests and accessors -/

/-- A number is no truth value. -/
@[simp] theorem isBool_ofPattern : (ofPattern p).isBool = false :=
  Bool.eq_false_iff.mpr fun h => by
    cases (isNumber_of_isBool h).symm.trans (isNumber_ofPattern p)

/-- A number is not null. -/
@[simp] theorem isNull_ofPattern : (ofPattern p).isNull = false :=
  decide_eq_false (ne_of_isNumber (isNumber_ofPattern p) isNumber_null)

/-- A value refers to something if it has a handle. -/
theorem isReference_eq (v : Value) : v.isReference = v.toHandle?.isSome := by
  rw [toHandle?]
  cases v.isReference <;> rfl

/-- A boxed pattern gives itself back, and the canonical one if it is not a number. -/
@[simp] theorem toFloat?_ofPattern :
    (ofPattern p).toFloat?.map Float.toBits = some (if PatternIsNaN p then canonicalNaN else p) := by
  rw [toFloat?, isNumber_ofPattern, if_pos rfl, Option.map_some, toBits_ofBits_ofPattern]
  split
  · next h => rw [bits_ofPattern_of_isNaN h]
  · next h => rw [bits_ofPattern_of_not h]

/-- What is no truth value gives none. -/
theorem toBool?_of_isBool {v : Value} (h : v.isBool = false) : v.toBool? = none := by
  rw [toBool?, h]
  rfl

end Value

/-! ### What can be boxed -/

/-- What a value is made from. -/
inductive Boxable
  | number (pattern : UInt64)
  | bool (b : Bool)
  | null
  | reference (r : Handle)

/-- What kind of value something is boxed as. -/
inductive BoxKind
  | number
  | bool
  | null
  | reference
deriving DecidableEq

/-- Whether a value is seen to be of a kind. -/
def BoxKind.test : BoxKind → Value → Bool
  | number => Value.isNumber
  | bool => Value.isBool
  | null => Value.isNull
  | reference => Value.isReference

namespace Boxable

/-- The value made from something. -/
def box : Boxable → Value
  | number pattern => .ofPattern pattern
  | bool b => .ofBool b
  | null => .null
  | reference r => .ofHandle r

/-- The kind of value that is made from something. -/
def kind : Boxable → BoxKind
  | number _ => .number
  | bool _ => .bool
  | null => .null
  | reference _ => .reference

/-- Two values made from these are equal in the language. -/
def Equal : Boxable → Boxable → Prop
  | number p, number q => PatternsEqual p q
  | bool b, bool c => b = c
  | null, null => True
  | reference r, reference x => r = x
  | _, _ => False

/-- What the accessors of numbers, of truth values and of references give back, a number by its
pattern. -/
def givenBack : Boxable → Option UInt64 × Option Bool × Option Handle
  | number p => (some (if PatternIsNaN p then Value.canonicalNaN else p), none, none)
  | bool b => (none, some b, none)
  | null => (none, none, none)
  | reference r => (none, none, some r)

variable (a b : Boxable)

/-- Whatever is boxed passes the test for its own kind alone. -/
theorem test_box (k : BoxKind) : k.test a.box = true ↔ k = a.kind := by
  cases a with
  | number p => cases k <;> simp [BoxKind.test, box, kind, Value.isReference_eq]
  | bool b => cases b <;> cases k <;> decide
  | null => cases k <;> decide
  | reference r => cases k <;> simp [BoxKind.test, box, kind, Value.isReference_eq]

/-- What is boxed is given back by the accessor of its kind, and by no other. -/
theorem givenBack_box :
    (a.box.toFloat?.map Float.toBits, a.box.toBool?, a.box.toHandle?) = a.givenBack := by
  cases a with
  | number p =>
    rw [box, Value.toFloat?_ofPattern, Value.toBool?_of_isBool Value.isBool_ofPattern,
      Value.toHandle?_ofPattern]
    rfl
  | bool b => cases b <;> rfl
  | null => rfl
  | reference r =>
    rw [box, Value.toFloat?_of_isNumber (Value.isNumber_ofHandle r),
      Value.toBool?_of_isBool (Value.isBool_ofHandle r), Value.toHandle?_ofHandle]
    rfl

variable {a b}

/-- What is boxed as one value is of one kind. -/
theorem kind_of_box (h : a.box = b.box) : a.kind = b.kind :=
  (b.test_box a.kind).mp (h ▸ (a.test_box a.kind).mpr rfl)

/-- Only what is of one kind is equal. -/
theorem Equal.kind (h : a.Equal b) : a.kind = b.kind := by
  cases a <;> cases b <;> first | rfl | exact h.elim

/-- What is not a number is not boxed as one. -/
theorem isNumber_box (h : a.kind ≠ .number) : a.box.isNumber = false :=
  Bool.eq_false_iff.mpr fun hnumber => h ((a.test_box .number).mp hnumber).symm

/-- Boxed things are the same exactly if they are equal in the language. -/
theorem same_box : a.box.same b.box = true ↔ a.Equal b := by
  by_cases hkind : a.kind = b.kind
  · cases a with
    | number p =>
      cases b with
      | number q => exact Value.same_ofPattern
      | _ => cases hkind
    | bool c =>
      cases b with
      | bool d => cases c <;> cases d <;> simp [box, Equal] <;> decide
      | _ => cases hkind
    | null =>
      cases b with
      | null => exact iff_of_true (by decide) trivial
      | _ => cases hkind
    | reference r =>
      cases b with
      | reference x => exact Value.same_ofHandle
      | _ => cases hkind
  · refine iff_of_false (fun hsame => hkind (kind_of_box ?_)) fun h => hkind h.kind
    have hno : a.box.isNumber = false ∨ b.box.isNumber = false := by
      by_cases ha : a.kind = .number
      · exact .inr (isNumber_box fun hb => hkind (ha.trans hb.symm))
      · exact .inl (isNumber_box ha)
    rw [Value.same_of_isNumber hno] at hsame
    exact of_decide_eq_true hsame

/-- What is boxed as null or as a truth value is null or the truth value. -/
theorem box_inj (hb : b.kind = .null ∨ b.kind = .bool) : a.box = b.box ↔ a = b := by
  refine ⟨fun h => ?_, fun h => h ▸ rfl⟩
  have hkind := kind_of_box h
  cases b with
  | number _ | reference _ => rcases hb with hb | hb <;> cases hb
  | null =>
    cases a with
    | null => rfl
    | _ => cases hkind
  | bool d =>
    cases a with
    | bool c =>
      have hgiven := (bool c).givenBack_box.symm.trans (h ▸ (bool d).givenBack_box)
      rw [givenBack, givenBack, Prod.mk.injEq, Prod.mk.injEq, Option.some.injEq] at hgiven
      rw [hgiven.2.1]
    | _ => cases hkind

/-- Only null and false count as false. -/
theorem isFalsey_box : a.box.isFalsey = true ↔ a = .null ∨ a = .bool false := by
  rw [Value.isFalsey, Bool.or_eq_true, decide_eq_true_iff, decide_eq_true_iff]
  exact or_congr (box_inj (b := .null) (.inl rfl)) (box_inj (b := .bool false) (.inr rfl))

end Boxable

/-- Whatever is boxed is of its own kind and of no other; the accessor of its kind gives it back, and
every other accessor gives nothing; only null and false count as false; and boxed things are the same
exactly if they are equal in the language. -/
theorem boxed_faithfully (a b : Boxable) :
    (∀ k : BoxKind, k.test a.box = true ↔ k = a.kind) ∧
      (a.box.toFloat?.map Float.toBits, a.box.toBool?, a.box.toHandle?) = a.givenBack ∧
      (a.box.isFalsey = true ↔ a = .null ∨ a = .bool false) ∧
      (a.box.same b.box = true ↔ a.Equal b) :=
  ⟨a.test_box, a.givenBack_box, Boxable.isFalsey_box, Boxable.same_box⟩

end ScriptMachine
