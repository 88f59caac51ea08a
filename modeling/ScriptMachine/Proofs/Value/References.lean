import ScriptMachine.Value

/-!
# Which values are references

A reference is told from every other value by the bits of its tag, and gives back the handle it
was made from.
-/

namespace ScriptMachine.Value

/-- The tag of a reference is found whatever it refers to. -/
theorem referenceTag_or_and (x : UInt64) : (referenceTag ||| x) &&& referenceTag = referenceTag := by
  apply UInt64.toBitVec_inj.mp
  ext j hj
  simp only [UInt64.toBitVec_and, UInt64.toBitVec_or, BitVec.getElem_and, BitVec.getElem_or]
  cases (UInt64.toBitVec referenceTag)[j] <;> simp

/-- The lower half of a reference is what it refers to. -/
theorem toUInt32_referenceTag_or (x : UInt32) : (referenceTag ||| x.toUInt64).toUInt32 = x := by
  rw [UInt64.toUInt32_or, UInt32.toUInt32_toUInt64]
  show (0 : UInt32) ||| x = x
  simp

/-- A reference gives back its handle. -/
@[simp] theorem toHandle?_ofHandle (r : Handle) : (ofHandle r).toHandle? = some r := by
  have htag : (ofHandle r).isReference = true := by
    simp [isReference, ofHandle, referenceTag_or_and]
  rw [toHandle?, if_pos htag]
  show some (Handle.mk (referenceTag ||| r.index.toUInt64).toUInt32) = some r
  rw [toUInt32_referenceTag_or]

/-- Distinct handles make distinct references. -/
@[simp] theorem ofHandle_inj {r x : Handle} : ofHandle r = ofHandle x ↔ r = x := by
  constructor
  · intro h
    have := congrArg toHandle? h
    simpa using this
  · rintro rfl
    rfl

/-- The bits that a number's tag has are the bits of a reference's tag too. -/
theorem quiet_of_reference {b : UInt64} (h : b &&& referenceTag = referenceTag) :
    b &&& quiet = quiet := by
  have hq : referenceTag &&& quiet = quiet := by decide
  calc b &&& quiet = b &&& (referenceTag &&& quiet) := by rw [hq]
    _ = (b &&& referenceTag) &&& quiet := by rw [UInt64.and_assoc]
    _ = quiet := by rw [h, hq]

/-- References are the same exactly if they are made from one handle. -/
theorem same_ofHandle {r x : Handle} : (ofHandle r).same (ofHandle x) = true ↔ r = x := by
  have hnumber : (ofHandle r).isNumber = false := by
    have hquiet : (ofHandle r).bits &&& quiet = quiet := quiet_of_reference (referenceTag_or_and _)
    simp [isNumber, hquiet]
  rw [same, hnumber, Bool.false_and, if_neg Bool.false_ne_true, decide_eq_true_eq, ← ofHandle_inj]
  exact ⟨fun h => by cases h' : ofHandle r; cases h'' : ofHandle x; simp_all, congrArg Value.bits⟩

/-- What has all the bits of the tag is a pattern that is not a number. -/
theorem isNaNPattern_of_quiet {p : UInt64} (h : p &&& quiet = quiet) : isNaNPattern p = true := by
  have hquiet : (p &&& 0x7FFFFFFFFFFFFFFF) &&& quiet = quiet := by
    have hm : (0x7FFFFFFFFFFFFFFF : UInt64) &&& quiet = quiet := by decide
    rw [UInt64.and_assoc, hm, h]
  have hle : quiet.toNat ≤ (p &&& 0x7FFFFFFFFFFFFFFF).toNat := by
    rw [← hquiet, UInt64.toNat_and]
    exact Nat.and_le_left
  have hlt : (0x7FF0000000000000 : UInt64).toNat < quiet.toNat := by decide
  exact decide_eq_true (UInt64.lt_iff_toNat_lt.mpr (Nat.lt_of_lt_of_le hlt hle))

/-- A number is no reference. -/
@[simp] theorem toHandle?_ofPattern (p : UInt64) : (ofPattern p).toHandle? = none := by
  have hno : (ofPattern p).isReference = false := by
    unfold ofPattern
    split
    · decide
    · next h =>
      rw [isReference, decide_eq_false_iff_not]
      exact fun href => h (isNaNPattern_of_quiet (quiet_of_reference href))
  rw [toHandle?, hno]
  rfl

/-- A number is no reference. -/
@[simp] theorem toHandle?_ofFloat (x : Float) : (ofFloat x).toHandle? = none :=
  toHandle?_ofPattern _

/-- Null is no reference. -/
@[simp] theorem toHandle?_null : null.toHandle? = none := by decide

/-- A truth value is no reference. -/
@[simp] theorem toHandle?_ofBool (b : Bool) : (ofBool b).toHandle? = none := by
  cases b <;> decide

end ScriptMachine.Value
