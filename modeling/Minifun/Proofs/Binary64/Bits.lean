import Mathlib.Algebra.Group.Nat.Defs
import Minifun.Binary64.Basic

/-! # Parts and bits

A real can be told from its parts. The mantissa of a finite real is full unless the exponent is the
least one, and there is one real only that is not a number.
-/

namespace Minifun.Binary64

/-- The mantissas and exponents of finite reals: the mantissa has 53 digits in base two unless the
exponent is the least one. -/
structure Canonical (mantissa : Nat) (exponent : Int) : Prop where
  mantissa_lt : mantissa < 2 ^ 53
  least : leastExponent ≤ exponent
  full : leastExponent < exponent → 2 ^ 52 ≤ mantissa

variable {x y : Float} {bits : Nat}

def bitsOf : Parts → Nat
  | .nan => infiniteBits + twoTo 51
  | .infinite negative => infiniteBits + if negative then twoTo 63 else 0
  | .finite negative m e =>
    m + (e - leastExponent).toNat * twoTo 52 + if negative then twoTo 63 else 0

theorem twoTo_eq (n : Nat) : twoTo n = 2 ^ n := rfl

theorem partsOfBits_cases (bits : Nat) {sign : Bool} (hsign : sign = (bits / 2 ^ 63 == 1))
    {biased fraction : Nat} (hbiased : biased = bits / 2 ^ 52 % 2 ^ 11)
    (hfraction : fraction = bits % 2 ^ 52) :
    (biased = 2047 ∧ fraction ≠ 0 ∧ partsOfBits bits = .nan) ∨
      (biased = 2047 ∧ fraction = 0 ∧ partsOfBits bits = .infinite sign) ∨
      (biased = 0 ∧ partsOfBits bits = .finite sign fraction leastExponent) ∨
      (0 < biased ∧ biased < 2047 ∧
        partsOfBits bits = .finite sign (fraction + 2 ^ 52)
          (leastExponent + (biased - 1 : Nat))) := by
  have hlt : biased < 2048 := hbiased ▸ Nat.mod_lt _ (by decide)
  have hparts : partsOfBits bits =
      if biased = 2047 then if fraction = 0 then .infinite sign else .nan
      else if biased = 0 then .finite sign fraction leastExponent
      else .finite sign (fraction + 2 ^ 52) (leastExponent + (biased - 1 : Nat)) := by
    rw [hsign, hbiased, hfraction]
    rfl
  rw [hparts]
  split
  · split <;> simp_all
  · split
    · simp_all
    · exact .inr (.inr (.inr ⟨by omega, by omega, rfl⟩))

theorem bitsOf_partsOfBits (h : bits < 2 ^ 64) (hnan : partsOfBits bits ≠ .nan) :
    bitsOf (partsOfBits bits) = bits := by
  have hsplit : bits = bits % 2 ^ 52 + bits / 2 ^ 52 % 2 ^ 11 * 2 ^ 52 +
      if bits / 2 ^ 63 == 1 then 2 ^ 63 else 0 := by
    split
    · rename_i hsign
      rw [beq_iff_eq] at hsign
      omega
    · rename_i hsign
      rw [beq_iff_eq] at hsign
      omega
  rcases partsOfBits_cases bits rfl rfl rfl with ⟨-, -, hp⟩ | ⟨hb, hf, hp⟩ | ⟨hb, hp⟩ | ⟨hb, -, hp⟩
  · exact absurd hp hnan
  all_goals
    rw [hp]
    simp only [bitsOf, twoTo_eq, infiniteBits]
    refine Eq.trans ?_ hsplit.symm
    omega

theorem parts_canonical {negative : Bool} {m : Nat} {e : Int}
    (h : parts x = .finite negative m e) : Canonical m e := by
  have hlt : x.toBits.toNat % 2 ^ 52 < 2 ^ 52 := Nat.mod_lt _ (by decide)
  rcases partsOfBits_cases x.toBits.toNat rfl rfl rfl with
    ⟨-, -, hp⟩ | ⟨-, -, hp⟩ | ⟨-, hp⟩ | ⟨hb, -, hp⟩
  · cases hp.symm.trans h
  · cases hp.symm.trans h
  · cases hp.symm.trans h
    exact ⟨by omega, Int.le_refl _, fun h => absurd h (Int.lt_irrefl _)⟩
  · cases hp.symm.trans h
    exact ⟨by omega, by omega, fun _ => by omega⟩

/-- Of the bits of what is not a number only one choice is admitted. -/
theorem toBits_nan (h : parts x = .nan) : x.toBits.toNat = bitsOf .nan := by
  obtain ⟨hexp, hman⟩ : x.toBits.toNat / 2 ^ 52 % 2 ^ 11 = 2047 ∧ x.toBits.toNat % 2 ^ 52 ≠ 0 := by
    rcases partsOfBits_cases x.toBits.toNat rfl rfl rfl with
      ⟨hb, hf, -⟩ | ⟨-, -, hp⟩ | ⟨-, hp⟩ | ⟨-, -, hp⟩
    · exact ⟨hb, hf⟩
    all_goals cases hp.symm.trans h
  have hpacked := x.toModel.valid.eq_packedNaN ?_ ?_
  · exact congrArg BitVec.toNat hpacked
  · refine BitVec.eq_of_toNat_eq ?_
    rw [Float.Model.UnpackedFloat.unpackExponent, BitVec.toNat_cast, BitVec.extractLsb_toNat,
      Nat.shiftRight_eq_div_pow]
    exact hexp
  · intro hzero
    have hzero' := congrArg BitVec.toNat hzero
    rw [Float.Model.UnpackedFloat.unpackMantissa, BitVec.toNat_cast, BitVec.extractLsb_toNat,
      Nat.shiftRight_zero] at hzero'
    exact hman hzero'

theorem parts_injective (h : parts x = parts y) : x = y := by
  have hbits : ∀ z : Float, z.toBits.toNat = bitsOf (parts z) := by
    intro z
    by_cases hz : parts z = .nan
    · rw [hz, toBits_nan hz]
    · exact (bitsOf_partsOfBits z.toBits.toNat_lt hz).symm
  have hxy : x.toBits = y.toBits := UInt64.toNat_inj.mp (by rw [hbits, hbits, h])
  obtain ⟨⟨a, ha⟩⟩ := x
  obtain ⟨⟨b, hb⟩⟩ := y
  cases hxy
  rfl

end Minifun.Binary64
