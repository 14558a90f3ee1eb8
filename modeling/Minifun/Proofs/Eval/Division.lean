import Mathlib.Algebra.Order.Field.Rat
import Mathlib.Data.Int.ConditionallyCompleteOrder
import Mathlib.Data.Rat.Cast.Order
import Mathlib.Data.Sign.Basic
import Minifun.Eval.Run
import Minifun.Proofs.Sequence

/-! # Division of whole numbers

The quotient of two whole numbers is rounded toward zero, and the remainder is what is then missing.
It has the sign of the dividend. Both are determined by this, for all signs and sizes.
-/

namespace Minifun

variable {a b q r q' r' : Int}

/-- A dividend is a multiple of a divisor with a remainder, which is smaller than the divisor in
size and is zero or has the sign of the dividend. -/
structure LeavesRemainder (a b q r : Int) : Prop where
  sum : a = b * q + r
  abs_lt : |r| < |b|
  sign : r = 0 ∨ r.sign = a.sign

/-- A quotient of whole numbers is rounded toward zero: its size is the greatest one that is not
above that of the exact quotient, and unless it is zero it has the sign of the exact quotient. -/
structure RoundsTowardZero (a b q : Int) : Prop where
  greatest : IsGreatest {m : Int | (m : ℚ) ≤ |(a : ℚ)| / |(b : ℚ)|} |q|
  sign : q = 0 ∨ SignType.sign (q : ℚ) = SignType.sign ((a : ℚ) / b)

/-- Zero counts as positive in the choice of the sign, which makes no difference to a quotient that
is zero. -/
theorem truncatedQuotient_eq_tdiv (a b : Int) : truncatedQuotient a b = a.tdiv b := by
  have hsize : ∀ m n : Nat, ((m / n : Nat) : Int) = Int.tdiv m n := fun m n => by
    rw [Int.ofNat_tdiv]
  obtain ⟨m, rfl | rfl⟩ := a.eq_nat_or_neg <;> obtain ⟨n, rfl | rfl⟩ := b.eq_nat_or_neg <;>
    simp only [truncatedQuotient, Int.natAbs_neg, Int.natAbs_natCast, Int.neg_tdiv, Int.tdiv_neg,
      hsize]
  · rw [if_pos (by omega)]
  · split
    · obtain rfl : n = 0 := by omega
      simp
    · rfl
  · split
    · obtain rfl : m = 0 := by omega
      simp
    · rfl
  · split
    · rw [Int.neg_neg]
    · have hzero : m = 0 ∨ n = 0 := by omega
      rcases hzero with rfl | rfl <;> simp

theorem leavesRemainder_tdiv (hb : b ≠ 0) : LeavesRemainder a b (a.tdiv b) (a.tmod b) where
  sum := (Int.mul_tdiv_add_tmod a b).symm
  abs_lt := by
    rw [Int.abs_eq_natAbs, Int.abs_eq_natAbs, Int.natAbs_tmod]
    exact_mod_cast Nat.mod_lt _ (Int.natAbs_pos.mpr hb)
  sign := by
    rw [Int.sign_tmod]
    by_cases h : b ∣ a
    · exact .inl (Int.tmod_eq_zero_of_dvd h)
    · exact .inr (if_neg h)

theorem LeavesRemainder.eq_tdiv (h : LeavesRemainder a b q r) (hb : b ≠ 0) :
    q = a.tdiv b ∧ r = a.tmod b := by
  have hsum : r + b * q = a := by rw [h.sum, Int.add_comm]
  have hlt : r.natAbs < b.natAbs := by
    have := h.abs_lt
    rwa [Int.abs_eq_natAbs, Int.abs_eq_natAbs, Int.ofNat_lt] at this
  rcases Int.le_total 0 a with ha | ha
  · have hr : 0 ≤ r := by
      rcases h.sign with rfl | hsign
      · exact le_rfl
      · exact Int.sign_nonneg_iff.mp (hsign ▸ Int.sign_nonneg_iff.mpr ha)
    obtain ⟨hq, hr⟩ := (Int.tdiv_tmod_unique ha hb).mpr ⟨hsum, hr, by omega⟩
    exact ⟨hq.symm, hr.symm⟩
  · have hr : r ≤ 0 := by
      rcases h.sign with rfl | hsign
      · exact le_rfl
      · exact Int.sign_nonpos_iff.mp (hsign ▸ Int.sign_nonpos_iff.mpr ha)
    obtain ⟨hq, hr⟩ := (Int.tdiv_tmod_unique' ha hb).mpr ⟨hsum, by omega, hr⟩
    exact ⟨hq.symm, hr.symm⟩

theorem sign_ratio (hb : b ≠ 0) : SignType.sign ((a : ℚ) / b) = SignType.sign (a * b) := by
  have hb' : (b : ℚ) ≠ 0 := by exact_mod_cast hb
  have hproduct : ((a * b : Int) : ℚ) = (a : ℚ) / b * ((b : ℚ) * b) := by
    rw [← mul_assoc, div_mul_cancel₀ _ hb', Int.cast_mul]
  rw [← sign_intCast (α := ℚ) (a * b), hproduct, sign_mul, sign_pos (mul_self_pos.mpr hb'), mul_one]

theorem sign_tdiv_eq (h : a.tdiv b ≠ 0) : SignType.sign (a.tdiv b) = SignType.sign (a * b) := by
  have hsign : (a.tdiv b).sign = (a * b).sign := by
    rw [Int.sign_tdiv, Int.sign_mul]
    refine if_neg fun hlt => h ?_
    rw [← Int.sign_eq_zero_iff_zero, Int.sign_tdiv, if_pos hlt]
  rw [Int.sign_eq_sign, Int.sign_eq_sign] at hsign
  generalize SignType.sign (a.tdiv b) = u, SignType.sign (a * b) = v at hsign
  revert hsign
  cases u <;> cases v <;> decide

theorem setOf_le_ratio (hb : b ≠ 0) :
    {m : Int | (m : ℚ) ≤ |(a : ℚ)| / |(b : ℚ)|} = Set.Iic (|a| / |b|) := by
  have hpos : 0 < |b| := abs_pos.mpr hb
  ext m
  have hratio : (m : ℚ) ≤ |(a : ℚ)| / |(b : ℚ)| ↔ m * |b| ≤ |a| := by
    rw [le_div_iff₀ (by exact_mod_cast hpos)]
    norm_cast
  rw [Set.mem_ofPred_eq, hratio, Set.mem_Iic, Int.le_ediv_iff_mul_le hpos]

theorem abs_tdiv_eq (a b : Int) : |a.tdiv b| = |a| / |b| := by
  rw [Int.abs_eq_natAbs, Int.abs_eq_natAbs, Int.abs_eq_natAbs, Int.natAbs_tdiv]
  rfl

theorem roundsTowardZero_tdiv (hb : b ≠ 0) : RoundsTowardZero a b (a.tdiv b) where
  greatest := by
    rw [setOf_le_ratio hb, abs_tdiv_eq]
    exact isGreatest_Iic
  sign := by
    by_cases h : a.tdiv b = 0
    · exact .inl h
    · exact .inr (by rw [sign_intCast, sign_tdiv_eq h, sign_ratio hb])

theorem RoundsTowardZero.eq_tdiv (h : RoundsTowardZero a b q) (hb : b ≠ 0) : q = a.tdiv b := by
  have hsize : |q| = |a.tdiv b| := h.greatest.unique (roundsTowardZero_tdiv hb).greatest
  rcases abs_eq_abs.mp hsize with heq | hneg
  · exact heq
  · rcases h.sign with hzero | hsign
    · omega
    · by_cases ht : a.tdiv b = 0
      · omega
      · rw [sign_intCast, sign_ratio hb, ← sign_tdiv_eq ht, hneg, Left.sign_neg] at hsign
        cases h : SignType.sign (a.tdiv b) <;> simp_all

section Operands

variable {enter : Enter} {outer : Scope Value} {frame frame₁ frame₂ : Frame Value} {x y : Expr}

theorem evalWith_arith (hx : x.evalWith enter outer frame = .ok (.int a) frame₁)
    (hy : y.evalWith enter outer frame₁ = .ok (.int b) frame₂) (op : ArithOp) (loc : Option Loc) :
    (Term.binary (.arith op) x y loc).evalWith enter outer frame =
      Eval.lift ((Value.int a).arithmetic op (.int b) loc) frame₂ := by
  have hleft : Eval.demand x.loc (x.evalWith enter outer) frame = .ok (.int a) frame₁ :=
    bind_of_ok hx
  have hright : Eval.demand y.loc (y.evalWith enter outer) frame₁ = .ok (.int b) frame₂ :=
    bind_of_ok hy
  rw [Term.evalWith]
  · exact (bind_of_ok hleft).trans (bind_of_ok hright)
  · simp

theorem evalWith_division (hx : x.evalWith enter outer frame = .ok (.int a) frame₁)
    (hy : y.evalWith enter outer frame₁ = .ok (.int b) frame₂) (loc : Option Loc) :
    (Term.binary (.arith .div) x y loc).evalWith enter outer frame =
        (if b = 0 then .error (.error ⟨.divisionByZero, loc⟩) frame₂
          else .ok (.int (a.tdiv b)) frame₂) ∧
      (Term.binary (.arith .mod) x y loc).evalWith enter outer frame =
        if b = 0 then .error (.error ⟨.divisionByZero, loc⟩) frame₂
          else .ok (.int (a.tmod b)) frame₂ := by
  rw [evalWith_arith hx hy, evalWith_arith hx hy, Int.tmod_def, ← truncatedQuotient_eq_tdiv]
  by_cases hb : b = 0 <;> simp only [Value.arithmetic, ArithOp.onInts, hb, if_true, if_false] <;>
    exact ⟨rfl, rfl⟩

/-- Whatever the operands are that give two whole numbers, their quotient and remainder fail for a
zero divisor and for no other. Else they are the quotient rounded toward zero and the remainder with
the sign of the dividend, and the only such numbers. -/
theorem divides_toward_zero (hx : x.evalWith enter outer frame = .ok (.int a) frame₁)
    (hy : y.evalWith enter outer frame₁ = .ok (.int b) frame₂) (loc : Option Loc) :
    let quotient := (Term.binary (.arith .div) x y loc).evalWith enter outer frame
    let remainder := (Term.binary (.arith .mod) x y loc).evalWith enter outer frame
    (quotient = .error (.error ⟨.divisionByZero, loc⟩) frame₂ ↔ b = 0) ∧
      (remainder = .error (.error ⟨.divisionByZero, loc⟩) frame₂ ↔ b = 0) ∧
      (b ≠ 0 → ∃ q r, quotient = .ok (.int q) frame₂ ∧ remainder = .ok (.int r) frame₂ ∧
        LeavesRemainder a b q r ∧ RoundsTowardZero a b q ∧
        (∀ q' r', LeavesRemainder a b q' r' → q' = q ∧ r' = r) ∧
        ∀ q', RoundsTowardZero a b q' → q' = q) := by
  intro quotient remainder
  obtain ⟨hquotient, hremainder⟩ := evalWith_division hx hy loc
  have hquotient : quotient = _ := hquotient
  have hremainder : remainder = _ := hremainder
  rw [hquotient, hremainder]
  refine ⟨by split <;> simp_all, by split <;> simp_all, fun hb => ?_⟩
  rw [if_neg hb, if_neg hb]
  exact ⟨a.tdiv b, a.tmod b, rfl, rfl, leavesRemainder_tdiv hb, roundsTowardZero_tdiv hb,
    fun _ _ h => h.eq_tdiv hb, fun _ h => h.eq_tdiv hb⟩

/-- A negative dividend that is no multiple of the divisor. -/
theorem divides_toward_zero_negative :
    let x : Expr := .unary .neg (.literal (.int 7) none) none
    let y : Expr := .literal (.int 2) none
    let quotient := (Term.binary (.arith .div) x y none).eval 0 []
    let remainder := (Term.binary (.arith .mod) x y none).eval 0 []
    x.eval 0 [] = .ok (.int (-7)) [] ∧ y.eval 0 [] = .ok (.int 2) [] ∧
      (quotient = .error (.error ⟨.divisionByZero, none⟩) [] ↔ (2 : Int) = 0) ∧
      (remainder = .error (.error ⟨.divisionByZero, none⟩) [] ↔ (2 : Int) = 0) ∧
      ((2 : Int) ≠ 0 → ∃ q r, quotient = .ok (.int q) [] ∧ remainder = .ok (.int r) [] ∧
        LeavesRemainder (-7) 2 q r ∧ RoundsTowardZero (-7) 2 q ∧
        (∀ q' r', LeavesRemainder (-7) 2 q' r' → q' = q ∧ r' = r) ∧
        ∀ q', RoundsTowardZero (-7) 2 q' → q' = q) := by
  intro x y quotient remainder
  have hx : x.eval 0 [] = .ok (.int (-7)) [] := rfl
  have hy : y.eval 0 [] = .ok (.int 2) [] := rfl
  exact ⟨hx, hy, divides_toward_zero hx hy none⟩

end Operands

end Minifun
