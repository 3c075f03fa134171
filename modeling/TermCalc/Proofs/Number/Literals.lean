import Mathlib
import TermCalc.Token.Lexer

/-!
# The numbers of literals

No literal denotes a NaN: a decimal is rounded to a finite double or to infinity. So the number of
every literal equals itself.

* `doubleParts_eq_nan_iff`: the bits of a NaN. `doubleParts_ofBits`: all others are kept, so they
  make no NaN.
* `doubleParts_nearestDouble`: **rounding makes no NaN.**
* `Lexer.equal_of_numberOf`: **the number of a literal equals itself.**
-/

namespace TermCalc

open Float.Model

theorem toNat_unpackExponent (b : BitVec Format.binary64.numBits) :
    (UnpackedFloat.unpackExponent b).toNat = b.toNat / hiddenBit % 2048 := by
  simp [UnpackedFloat.unpackExponent, BitVec.extractLsb, hiddenBit, Nat.shiftRight_eq_div_pow]

theorem toNat_unpackMantissa (b : BitVec Format.binary64.numBits) :
    (UnpackedFloat.unpackMantissa b).toNat = b.toNat % hiddenBit := by
  simp [UnpackedFloat.unpackMantissa, BitVec.extractLsb, hiddenBit]

theorem doubleParts_eq_nan_iff {x : Float} : doubleParts x = .nan ↔
    x.toBits.toNat / hiddenBit % 2048 = 2047 ∧ x.toBits.toNat % hiddenBit ≠ 0 := by
  unfold doubleParts
  dsimp only
  split
  · split <;> simp_all
  · split <;> simp_all

/-- Bits that are not those of a NaN make no NaN. -/
theorem doubleParts_ofBits {a : UInt64}
    (h : a.toNat / hiddenBit % 2048 = 2047 → a.toNat % hiddenBit = 0) :
    doubleParts (Float.ofBits a) ≠ .nan := by
  have hnumber : @UnpackedFloat.isNaNBits .binary64 a.toBitVec = false := by
    rw [UnpackedFloat.isNaNBits, decide_eq_false_iff_not, ← BitVec.toNat_inj, Ne,
      ← BitVec.toNat_inj, toNat_unpackExponent, toNat_unpackMantissa]
    exact fun hnan => hnan.2 (h hnan.1)
  -- so the bits are kept
  have hbits : (Float.ofBits a).toBits =
      .ofBitVec ((UnpackedFloat.unpack .binary64 a.toBitVec).pack .binary64) := rfl
  rw [UnpackedFloat.pack_unpack, hnumber] at hbits
  intro hnan
  obtain ⟨hexponent, hmantissa⟩ := doubleParts_eq_nan_iff.1 hnan
  rw [hbits] at hexponent hmantissa
  exact hmantissa (h hexponent)

theorem doubleParts_signedDouble (negative : Bool) {bits : Nat} (h : bits ≤ infinityBits) :
    doubleParts (signedDouble negative bits) ≠ .nan := by
  refine doubleParts_ofBits fun hexponent => ?_
  have hbits : (UInt64.ofNat ((if negative then signBit else 0) + bits)).toNat =
      (if negative then signBit else 0) + bits := by
    rw [UInt64.toNat_ofNat']
    unfold infinityBits hiddenBit at h
    unfold signBit
    split <;> omega
  rw [hbits] at hexponent ⊢
  unfold infinityBits hiddenBit at h
  unfold signBit hiddenBit at *
  split at hexponent <;> simp_all <;> omega

/-- **Rounding makes no NaN.** -/
theorem doubleParts_nearestDouble (negative : Bool) (num den : Nat) :
    doubleParts (nearestDouble negative num den) ≠ .nan := by
  unfold nearestDouble
  split
  · exact doubleParts_signedDouble negative (Nat.zero_le _)
  · exact doubleParts_signedDouble negative (Nat.min_le_right _ _)

theorem doubleParts_doubleOfDecimal (negative : Bool) (digits count : Nat) (exponent : Int) :
    doubleParts (doubleOfDecimal negative digits count exponent) ≠ .nan := by
  unfold doubleOfDecimal
  split
  · exact doubleParts_nearestDouble negative 0 1
  · split
    · exact doubleParts_signedDouble negative (Nat.le_refl _)
    · exact doubleParts_nearestDouble negative _ _

theorem Num.equal_float {x : Float} (h : doubleParts x ≠ .nan) :
    (Num.float x).equal (.float x) = true := by
  have hvalue : ∃ e, (Num.float x).value? = some e := by
    rw [value?]
    cases hp : doubleParts x with
    | nan => exact absurd hp h
    | infinite negative => exact ⟨_, rfl⟩
    | finite negative m q => exact ⟨_, rfl⟩
  obtain ⟨e, he⟩ := hvalue
  simp [equal, he]

/-- **The number of a literal equals itself.** -/
theorem Lexer.equal_of_numberOf {x : NumberLiteral} {n : Num} (h : numberOf x = .ok n) :
    n.equal n = true := by
  unfold numberOf at h
  split at h
  · split at h
    · cases h
    · split at h
      · cases h
      · cases h
        simp [Num.equal]
  · split at h
    · cases h
    · cases h
      exact Num.equal_float (doubleParts_doubleOfDecimal _ _ _ _)

end TermCalc
