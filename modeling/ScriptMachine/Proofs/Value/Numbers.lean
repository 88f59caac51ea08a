import Mathlib
import ScriptMachine.Proofs.Value.References

/-!
# Numbers among the values

Floating point has one pattern that is not a number, the canonical one. So a number is boxed as its
own pattern, and gives it back.
-/

namespace ScriptMachine.Value

open Float.Model

/-- The exponent and the mantissa of a pattern that is not a number. -/
theorem fields_of_isNaNPattern {p : UInt64} (h : isNaNPattern p = true) :
    p.toNat % 2 ^ 63 / 2 ^ 52 = 2047 ∧ p.toNat % 2 ^ 52 ≠ 0 := by
  have hlt : (0x7FF0000000000000 : UInt64).toNat < (p &&& 0x7FFFFFFFFFFFFFFF).toNat :=
    UInt64.lt_iff_toNat_lt.mp (of_decide_eq_true h)
  have hand : (p &&& 0x7FFFFFFFFFFFFFFF).toNat = p.toNat % 2 ^ 63 := by
    rw [UInt64.toNat_and]
    exact Nat.and_two_pow_sub_one_eq_mod p.toNat 63
  rw [hand, show (0x7FF0000000000000 : UInt64).toNat = 2047 * 2 ^ 52 by decide] at hlt
  omega

/-- Only the canonical pattern of a number is one that is not a number. -/
theorem toBits_of_isNaNPattern {x : Float} (h : isNaNPattern x.toBits = true) :
    x.toBits = canonicalNaN := by
  obtain ⟨hexponent, hmantissa⟩ := fields_of_isNaNPattern h
  have hvalid := x.toModel.valid
  have hcanonical := hvalid.eq_packedNaN (by
    apply BitVec.eq_of_toNat_eq
    show x.toBits.toNat >>> 52 % 2 ^ 11 = 2047
    rw [Nat.shiftRight_eq_div_pow]
    omega) (by
    intro hzero
    have := congrArg BitVec.toNat hzero
    rw [UnpackedFloat.unpackMantissa_def, BitVec.extractLsb'_toNat] at this
    exact hmantissa this)
  exact UInt64.toBitVec_inj.mp hcanonical

/-- A number is boxed as its pattern. -/
theorem bits_ofFloat (x : Float) : (ofFloat x).bits = x.toBits := by
  rw [ofFloat, ofPattern]
  split
  · next h => exact (toBits_of_isNaNPattern h).symm
  · rfl

/-- A boxed pattern is a number. -/
@[simp] theorem isNumber_ofPattern (p : UInt64) : (ofPattern p).isNumber = true := by
  unfold ofPattern
  split
  · decide
  · next h =>
    rw [isNumber, decide_eq_true_eq]
    exact fun hquiet => h (isNaNPattern_of_quiet hquiet)

/-- A number is one. -/
@[simp] theorem isNumber_ofFloat (x : Float) : (ofFloat x).isNumber = true :=
  isNumber_ofPattern _

/-- Null is no number. -/
@[simp] theorem isNumber_null : null.isNumber = false := by decide

/-- A truth value is no number. -/
@[simp] theorem isNumber_ofBool (b : Bool) : (ofBool b).isNumber = false := by
  cases b <;> decide

/-- A reference is no number. -/
@[simp] theorem isNumber_ofHandle (r : Handle) : (ofHandle r).isNumber = false := by
  have hquiet : (ofHandle r).bits &&& quiet = quiet := quiet_of_reference (referenceTag_or_and _)
  simp [isNumber, hquiet]

/-- A reference is no truth value: it has the sign bit. -/
@[simp] theorem isBool_ofHandle (r : Handle) : (ofHandle r).isBool = false := by
  rw [isBool, decide_eq_false_iff_not]
  intro heq
  have hsign := congrArg (fun b : UInt64 => b.toBitVec.getLsbD 63) heq
  simp [ofHandle, referenceTag, quiet] at hsign

/-- A number gives back what it was made from. -/
@[simp] theorem toFloat?_ofFloat (x : Float) : (ofFloat x).toFloat? = some x := by
  rw [toFloat?, isNumber_ofFloat, if_pos rfl, bits_ofFloat, Float.ofBits_toBits]

/-- What is no number has none. -/
theorem toFloat?_of_isNumber {v : Value} (h : v.isNumber = false) : v.toFloat? = none := by
  rw [toFloat?, h]
  rfl

/-- Values that are told apart are different. -/
theorem ne_of_isNumber {v w : Value} (hv : v.isNumber = true) (hw : w.isNumber = false) : v ≠ w := by
  rintro rfl
  cases hv.symm.trans hw

/-- A reference is different from what is none. -/
theorem ofHandle_ne {r : Handle} {v : Value} (hv : v.toHandle? = none) : ofHandle r ≠ v := by
  rintro rfl
  rw [toHandle?_ofHandle] at hv
  cases hv

/-- A reference is not null. -/
@[simp] theorem isNull_ofHandle (r : Handle) : (ofHandle r).isNull = false :=
  decide_eq_false (ofHandle_ne toHandle?_null)

/-- A reference does not count as false. -/
@[simp] theorem isFalsey_ofHandle (r : Handle) : (ofHandle r).isFalsey = false := by
  simp [isFalsey, ofHandle_ne toHandle?_null, ofHandle_ne (toHandle?_ofBool false)]

/-- Numbers are compared by the rules of floating point. -/
@[simp] theorem same_ofFloat (x y : Float) : (ofFloat x).same (ofFloat y) = (x == y) := by
  rw [same, isNumber_ofFloat, isNumber_ofFloat, bits_ofFloat, bits_ofFloat, Float.ofBits_toBits,
    Float.ofBits_toBits]
  rfl

/-- What is no number is the same only as itself. -/
theorem same_of_isNumber {v w : Value} (h : v.isNumber = false ∨ w.isNumber = false) :
    v.same w = decide (v = w) := by
  have hboth : (v.isNumber && w.isNumber) = false := by
    rcases h with h | h <;> simp [h]
  rw [same, hboth, if_neg Bool.false_ne_true]
  exact decide_eq_decide.mpr ⟨fun h => by cases v; cases w; exact congrArg Value.mk h, congrArg Value.bits⟩

end ScriptMachine.Value
