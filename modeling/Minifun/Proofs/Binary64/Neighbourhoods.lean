import Mathlib.Algebra.Order.Field.Power
import Mathlib.Algebra.Order.Field.Rat
import Mathlib.Data.Nat.Cast.Order.Field
import Mathlib.Tactic.FieldSimp
import Mathlib.Tactic.Linarith
import Mathlib.Tactic.NormNum
import Mathlib.Tactic.Positivity
import Mathlib.Tactic.Ring
import Minifun.Binary64.Shortest
import Minifun.Proofs.Binary64.Bits

/-! # Decimals that read back

The neighbourhoods of different reals are apart, so a decimal in one of them belongs to one real
only. Seventeen digits are enough to reach every neighbourhood: the decimals of so many digits lie
closer together than the neighbourhood is wide.
-/

namespace Minifun.Binary64

section Powers

variable {b : ℚ} {e : Int}

theorem zpow_eq_inv_pow (b : ℚ) (he : e < 0) : b ^ e = (b ^ e.natAbs)⁻¹ := by
  rw [← zpow_natCast, ← zpow_neg]
  congr 1
  omega

theorem zpow_eq_pow (b : ℚ) (he : ¬ e < 0) : b ^ e = b ^ e.toNat := by
  rw [← zpow_natCast]
  congr 1
  omega

theorem tenTo_pos (n : Nat) : 0 < tenTo n :=
  Nat.pow_pos (by decide)

theorem tenTo_cast (n : Nat) : (tenTo n : ℚ) = 10 ^ n := by
  simp [tenTo]

theorem ten_zpow_of_neg (he : e < 0) : (10 : ℚ) ^ e = ((tenTo e.natAbs : Nat) : ℚ)⁻¹ := by
  simp [zpow_eq_inv_pow 10 he, tenTo]

theorem ten_zpow_of_nonneg (he : ¬ e < 0) : (10 : ℚ) ^ e = (tenTo e.toNat : Nat) := by
  simp [zpow_eq_pow 10 he, tenTo]

theorem twoTo_mono {i j : Nat} (h : i ≤ j) : twoTo i ≤ twoTo j :=
  Nat.pow_le_pow_right (by decide) h

theorem twoTo_le_tenTo (n : Nat) : twoTo (2 + 3 * n) ≤ 4 * tenTo n := by
  calc twoTo (2 + 3 * n) = 2 ^ (2 + 3 * n) := rfl
    _ = 4 * (2 ^ 3) ^ n := by rw [Nat.pow_add, Nat.pow_mul]
    _ ≤ 4 * tenTo n := Nat.mul_le_mul_left 4 (Nat.pow_le_pow_left (by decide) n)

theorem scaled_den_pos (n : Nat) (e : Int) : 0 < (scaled n e).2 := by
  unfold scaled
  split
  · exact Nat.two_pow_pos _
  · exact Nat.one_pos

theorem scaled_ratio (n : Nat) (e : Int) : ((scaled n e).1 : ℚ) / (scaled n e).2 = n * 2 ^ e := by
  unfold scaled
  split
  · rename_i he
    simp [twoTo, zpow_eq_inv_pow 2 he, div_eq_mul_inv]
  · rename_i he
    simp [twoTo, zpow_eq_pow 2 he]

end Powers

namespace Neighbourhood

/-- A rational lies in the neighbourhood. -/
def Has (v : Neighbourhood) (x : ℚ) : Prop :=
  if v.closed then v.low / v.den ≤ x ∧ x ≤ v.high / v.den
  else v.low / v.den < x ∧ x < v.high / v.den

variable {v : Neighbourhood} {x : ℚ} {d : Nat} {k leading : Int}

theorem Has.bounds (h : v.Has x) : (v.low : ℚ) / v.den ≤ x ∧ x ≤ v.high / v.den := by
  unfold Has at h
  split at h
  · exact h
  · exact ⟨h.1.le, h.2.le⟩

theorem Has.strict (h : v.Has x) (hv : v.closed = false) :
    (v.low : ℚ) / v.den < x ∧ x < v.high / v.den := by
  simpa [Has, hv] using h

theorem has_of_strict (hlow : (v.low : ℚ) / v.den < x) (hhigh : x < v.high / v.den) : v.Has x := by
  unfold Has
  split
  · exact ⟨hlow.le, hhigh.le⟩
  · exact ⟨hlow, hhigh⟩

theorem contains_iff (hden : 0 < v.den) : v.contains d k = true ↔ v.Has (d * 10 ^ k) := by
  have hden' : (0 : ℚ) < v.den := by exact_mod_cast hden
  unfold Has
  by_cases hk : k < 0
  · have hle : ∀ bound : Nat, ((bound : ℚ) / v.den ≤ d * 10 ^ k ↔
          bound * tenTo k.natAbs ≤ d * v.den) ∧
        (d * 10 ^ k ≤ (bound : ℚ) / v.den ↔ d * v.den ≤ bound * tenTo k.natAbs) := by
      intro bound
      have hten : (0 : ℚ) < tenTo k.natAbs := by exact_mod_cast tenTo_pos _
      rw [ten_zpow_of_neg hk, ← div_eq_mul_inv, div_le_div_iff₀ hden' hten,
        div_le_div_iff₀ hten hden']
      constructor <;> norm_cast
    simp only [contains, if_pos hk]
    simp only [← not_le, hle]
    split <;> simp
  · have hle : ∀ bound : Nat, ((bound : ℚ) / v.den ≤ d * 10 ^ k ↔
          bound ≤ d * tenTo k.toNat * v.den) ∧
        (d * 10 ^ k ≤ (bound : ℚ) / v.den ↔ d * tenTo k.toNat * v.den ≤ bound) := by
      intro bound
      rw [ten_zpow_of_nonneg hk, div_le_iff₀ hden', le_div_iff₀ hden']
      constructor <;> norm_cast
    simp only [contains, if_neg hk]
    simp only [← not_le, hle]
    split <;> simp

theorem contains_of_onGrid (h : v.onGrid k = some d) : v.contains d k = true := by
  unfold onGrid at h
  dsimp only at h
  split at h
  · cases h
  · rename_i hq _
    obtain rfl := Option.some.inj h
    exact hq
  · rename_i _ hq
    obtain rfl := Option.some.inj h
    exact hq
  · rename_i hq hq'
    obtain rfl := Option.some.inj h
    split
    · exact hq
    · exact hq'

theorem not_contains_of_onGrid (h : v.onGrid k = none) :
    v.contains (v.grid k).1 k = false ∧ v.contains ((v.grid k).1 + 1) k = false := by
  unfold onGrid at h
  dsimp only at h
  split at h
  · exact ⟨‹_›, ‹_›⟩
  all_goals cases h

theorem div_bounds {a c : Nat} (hc : 0 < c) :
    ((a / c : Nat) : ℚ) ≤ a / c ∧ (a : ℚ) / c < ((a / c : Nat) : ℚ) + 1 := by
  have hc' : (0 : ℚ) < c := by exact_mod_cast hc
  refine ⟨Nat.cast_div_le, ?_⟩
  rw [div_lt_iff₀ hc']
  exact_mod_cast Nat.lt_mul_of_div_lt (Nat.lt_succ_self (a / c)) hc

theorem grid_bounds (hden : 0 < v.den) (k : Int) :
    ((v.grid k).1 : ℚ) * 10 ^ k ≤ v.value / v.den ∧
      (v.value : ℚ) / v.den < ((v.grid k).1 + 1) * 10 ^ k := by
  have hden' : (0 : ℚ) < v.den := by exact_mod_cast hden
  have hpow : (0 : ℚ) < 10 ^ k := by positivity
  rw [← le_div_iff₀ hpow, ← div_lt_iff₀ hpow]
  by_cases hk : k < 0
  · have h := div_bounds (a := v.value * tenTo k.natAbs) hden
    have hratio : (v.value : ℚ) / v.den / 10 ^ k = (v.value * tenTo k.natAbs : Nat) / v.den := by
      rw [ten_zpow_of_neg hk, div_inv_eq_mul, Nat.cast_mul, div_mul_eq_mul_div]
    simpa only [grid, if_pos hk, hratio] using h
  · have hpos : 0 < v.den * tenTo k.toNat := Nat.mul_pos hden (tenTo_pos _)
    have h := div_bounds (a := v.value) hpos
    have hratio : (v.value : ℚ) / v.den / 10 ^ k = v.value / (v.den * tenTo k.toNat : Nat) := by
      rw [ten_zpow_of_nonneg hk, div_div, Nat.cast_mul]
    simpa only [grid, if_neg hk, hratio] using h

theorem exists_onGrid (hden : 0 < v.den) (hlow : v.low < v.value) (hhigh : v.value < v.high)
    (hk : (10 : ℚ) ^ k < (v.high - v.low) / v.den) : ∃ d, v.onGrid k = some d := by
  have hden' : (0 : ℚ) < v.den := by exact_mod_cast hden
  by_contra hnone
  obtain ⟨hq, hq'⟩ := not_contains_of_onGrid <|
    Option.eq_none_iff_forall_ne_some.mpr (not_exists.mp hnone)
  obtain ⟨hbelow, habove⟩ := grid_bounds hden k
  have hlow' : (v.low : ℚ) / v.den < v.value / v.den := by gcongr
  have hhigh' : (v.value : ℚ) / v.den < v.high / v.den := by gcongr
  -- Both decimals next to the value are outside, so the neighbourhood lies between them.
  have hleft : ((v.grid k).1 : ℚ) * 10 ^ k ≤ v.low / v.den := by
    by_contra hlt
    have hhas := has_of_strict (not_le.mp hlt) (hbelow.trans_lt hhigh')
    rw [← contains_iff hden, hq] at hhas
    cases hhas
  have hright : (v.high : ℚ) / v.den ≤ ((v.grid k).1 + 1) * 10 ^ k := by
    by_contra hlt
    have hhas := has_of_strict (v := v) (hlow'.trans habove) (not_le.mp hlt)
    rw [← Nat.cast_succ, ← contains_iff hden, hq'] at hhas
    cases hhas
  rw [sub_div] at hk
  linarith

theorem search_contains {tries count further : Nat} (hfurther : further < tries)
    (h : ∃ d, v.onGrid (leading - (count + further : Nat) + 1) = some d) :
    v.contains (v.search leading tries count).1 (v.search leading tries count).2 = true := by
  induction tries generalizing count further with
  | zero => omega
  | succ tries ih =>
    rw [search]
    split
    · rename_i d hd
      exact contains_of_onGrid hd
    · rename_i hnone
      cases further with
      | zero => simp [hnone] at h
      | succ further =>
        have hlt : further < tries := by omega
        refine ih hlt ?_
        rwa [Nat.add_assoc, Nat.add_comm 1]

theorem leadingExponent_le (hden : 0 < v.den) (h : v.den ≤ v.value * tenTo 400) :
    (10 : ℚ) ^ v.leadingExponent ≤ v.value / v.den := by
  have hden' : (0 : ℚ) < v.den := by exact_mod_cast hden
  set whole := v.value * tenTo 400 / v.den with hwhole
  have hpos : 0 < whole := Nat.div_pos h hden
  obtain ⟨length, hlength⟩ : ∃ n, (Nat.toDigits 10 whole).length = n + 1 :=
    Nat.exists_eq_succ_of_ne_zero (by simp [Nat.toDigits_ne_nil])
  have hdigits : 10 ^ length ≤ whole := by
    rcases Nat.eq_zero_or_pos length with rfl | hlt
    · exact hpos
    · by_contra hsmall
      have := (Nat.length_toDigits_le_iff (by decide) hlt).mpr (not_le.mp hsmall)
      omega
  have hexponent : v.leadingExponent = (length : Int) - (400 : Nat) := by
    simp only [leadingExponent, ← hwhole, hlength]
    omega
  have hquotient : (whole : ℚ) ≤ v.value / v.den * tenTo 400 := by
    rw [div_mul_eq_mul_div, ← Nat.cast_mul]
    exact (div_bounds hden).1
  rw [hexponent, zpow_sub₀ (by norm_num), zpow_natCast, zpow_natCast, div_le_iff₀ (by positivity)]
  calc (10 : ℚ) ^ length ≤ whole := by exact_mod_cast hdigits
    _ ≤ v.value / v.den * tenTo 400 := hquotient
    _ = v.value / v.den * 10 ^ 400 := by rw [tenTo_cast]

end Neighbourhood

section Neighbourhoods

variable {m n : Nat} {e f : Int} {x : ℚ}

/-- How far the neighbourhood reaches down, in quarters of the last place. -/
def reach (m : Nat) (e : Int) : Nat :=
  if m = twoTo 52 && decide (leastExponent < e) then 1 else 2

theorem reach_cases (m : Nat) (e : Int) :
    (reach m e = 1 ∧ m = 2 ^ 52 ∧ leastExponent < e) ∨
      (reach m e = 2 ∧ (m = 2 ^ 52 → ¬ leastExponent < e)) := by
  unfold reach
  split
  · rename_i h
    simp only [Bool.and_eq_true, decide_eq_true_eq] at h
    exact .inl ⟨rfl, h⟩
  · rename_i h
    simp only [Bool.and_eq_true, decide_eq_true_eq] at h
    exact .inr ⟨rfl, fun hm he => h ⟨hm, he⟩⟩

theorem neighbourhood_den_pos (m : Nat) (e : Int) : 0 < (neighbourhood m e).den :=
  scaled_den_pos 1 (e - 2)

theorem neighbourhood_ratio (m : Nat) (e : Int) :
    ((neighbourhood m e).low : ℚ) / (neighbourhood m e).den =
        (4 * m - reach m e : Nat) * 2 ^ (e - 2) ∧
      ((neighbourhood m e).value : ℚ) / (neighbourhood m e).den = 4 * m * 2 ^ (e - 2) ∧
      ((neighbourhood m e).high : ℚ) / (neighbourhood m e).den = (4 * m + 2) * 2 ^ (e - 2) := by
  have hunit := scaled_ratio 1 (e - 2)
  rw [Nat.cast_one, one_mul] at hunit
  simp only [neighbourhood, Nat.cast_mul, mul_div_assoc, hunit]
  refine ⟨rfl, by norm_num, by norm_num⟩

theorem has_bounds (h : (neighbourhood m e).Has x) :
    ((4 * m - reach m e : Nat) : ℚ) * 2 ^ (e - 2) ≤ x ∧ x ≤ (4 * m + 2) * 2 ^ (e - 2) := by
  obtain ⟨hlow, -, hhigh⟩ := neighbourhood_ratio m e
  rw [← hlow, ← hhigh]
  exact h.bounds

theorem has_bounds_of_odd (h : (neighbourhood m e).Has x) (hm : m % 2 = 1) :
    ((4 * m - reach m e : Nat) : ℚ) * 2 ^ (e - 2) < x ∧ x < (4 * m + 2) * 2 ^ (e - 2) := by
  obtain ⟨hlow, -, hhigh⟩ := neighbourhood_ratio m e
  rw [← hlow, ← hhigh]
  exact h.strict (by simp [neighbourhood, hm])

/-- Where one neighbourhood ends before another one begins, or where it begins and one of them is
open, all of the first one lies before the second one. -/
theorem lt_of_ends {y : ℚ} (hx : (neighbourhood m e).Has x) (hy : (neighbourhood n f).Has y)
    (hends : (4 * (m : ℚ) + 2) * 2 ^ (e - 2) ≤ (4 * n - reach n f : Nat) * 2 ^ (f - 2))
    (hopen : m % 2 = 0 → n % 2 = 0 →
      (4 * (m : ℚ) + 2) * 2 ^ (e - 2) < (4 * n - reach n f : Nat) * 2 ^ (f - 2)) : x < y := by
  have hx' := (has_bounds hx).2
  have hy' := (has_bounds hy).1
  rcases Nat.mod_two_eq_zero_or_one m with hm | hm
  · rcases Nat.mod_two_eq_zero_or_one n with hn | hn
    · exact (hx'.trans_lt (hopen hm hn)).trans_le hy'
    · exact (hx'.trans hends).trans_lt (has_bounds_of_odd hy hn).1
  · exact ((has_bounds_of_odd hx hm).2.trans_le hends).trans_le hy'

theorem lt_of_mantissa_lt {y : ℚ} (h : m < n) (hx : (neighbourhood m e).Has x)
    (hy : (neighbourhood n e).Has y) : x < y := by
  have hreach := reach_cases n e
  have hunit : (0 : ℚ) < 2 ^ (e - 2) := by positivity
  refine lt_of_ends hx hy ?_ fun hm hn => ?_
  · refine mul_le_mul_of_nonneg_right ?_ hunit.le
    exact_mod_cast (by omega : 4 * m + 2 ≤ 4 * n - reach n e)
  · refine mul_lt_mul_of_pos_right ?_ hunit
    exact_mod_cast (by omega : 4 * m + 2 < 4 * n - reach n e)

theorem lt_of_exponent_lt {y : ℚ} (hm : Canonical m e) (hn : Canonical n f) (h : e < f)
    (hx : (neighbourhood m e).Has x) (hy : (neighbourhood n f).Has y) : x < y := by
  have hleast : leastExponent < f := hm.least.trans_lt h
  have hfull := hn.full hleast
  -- The last neighbourhood of an exponent ends where the first one of the next exponent begins.
  have hn' : 2 ^ 55 - 2 ≤ (4 * n - reach n f) * 2 := by
    have hreach := reach_cases n f
    omega
  have hunit : (0 : ℚ) < 2 ^ (e - 2) := by positivity
  have hdouble : (2 : ℚ) * 2 ^ (e - 2) ≤ 2 ^ (f - 2) := by
    rw [← zpow_one_add₀ (by norm_num)]
    exact zpow_le_zpow_right₀ (by norm_num) (by omega)
  have hlow : ((2 ^ 55 - 2 : Nat) : ℚ) * 2 ^ (e - 2) ≤ (4 * n - reach n f : Nat) * 2 ^ (f - 2) := by
    calc ((2 ^ 55 - 2 : Nat) : ℚ) * 2 ^ (e - 2)
        ≤ ((4 * n - reach n f) * 2 : Nat) * 2 ^ (e - 2) := by gcongr
      _ = (4 * n - reach n f : Nat) * (2 * 2 ^ (e - 2)) := by push_cast; ring
      _ ≤ (4 * n - reach n f : Nat) * 2 ^ (f - 2) := by gcongr
  have hlt := hm.mantissa_lt
  refine lt_of_ends hx hy (le_trans ?_ hlow) fun hm _ => lt_of_lt_of_le ?_ hlow
  · refine mul_le_mul_of_nonneg_right ?_ hunit.le
    exact_mod_cast (by omega : 4 * m + 2 ≤ 2 ^ 55 - 2)
  · refine mul_lt_mul_of_pos_right ?_ hunit
    exact_mod_cast (by omega : 4 * m + 2 < 2 ^ 55 - 2)

/-- A rational lies in one neighbourhood only. -/
theorem Canonical.unique (hm : Canonical m e) (hn : Canonical n f)
    (hx : (neighbourhood m e).Has x) (hx' : (neighbourhood n f).Has x) : m = n ∧ e = f := by
  rcases lt_trichotomy e f with hlt | rfl | hlt
  · exact absurd (lt_of_exponent_lt hm hn hlt hx hx') (lt_irrefl x)
  · rcases lt_trichotomy m n with hlt | rfl | hlt
    · exact absurd (lt_of_mantissa_lt hlt hx hx') (lt_irrefl x)
    · exact ⟨rfl, rfl⟩
    · exact absurd (lt_of_mantissa_lt hlt hx' hx) (lt_irrefl x)
  · exact absurd (lt_of_exponent_lt hn hm hlt hx' hx) (lt_irrefl x)

/-- Four hundred decimal places reach the first digit of every real. -/
theorem neighbourhood_den_le (hm : Canonical m e) (hpos : 0 < m) :
    (neighbourhood m e).den ≤ (neighbourhood m e).value * tenTo 400 := by
  have hleast : -1074 ≤ e := hm.least
  simp only [neighbourhood, scaled]
  split
  · calc twoTo (e - 2).natAbs ≤ twoTo (2 + 3 * 400) := twoTo_mono (by omega)
      _ ≤ 4 * tenTo 400 := twoTo_le_tenTo 400
      _ ≤ 4 * m * 1 * tenTo 400 := by gcongr; omega
  · exact Nat.mul_pos (Nat.mul_pos (by omega) (by simp [twoTo])) (tenTo_pos 400)

/-- Decimals of seventeen digits lie closer together than any neighbourhood is wide. -/
theorem seventeen_digits (hm : Canonical m e) (hpos : 0 < m) :
    (10 : ℚ) ^ ((neighbourhood m e).leadingExponent - 16) <
      ((neighbourhood m e).high - (neighbourhood m e).low) / (neighbourhood m e).den := by
  obtain ⟨hlow, hvalue, hhigh⟩ := neighbourhood_ratio m e
  have hleading := Neighbourhood.leadingExponent_le (neighbourhood_den_pos m e)
    (neighbourhood_den_le hm hpos)
  have hunit : (0 : ℚ) < 2 ^ (e - 2) := by positivity
  have hwide : 4 * m + (4 * m - reach m e) * 10 ^ 16 < (4 * m + 2) * 10 ^ 16 := by
    have hreach := reach_cases m e
    have hlt := hm.mantissa_lt
    omega
  have hwide' : 4 * (m : ℚ) + (4 * m - reach m e : Nat) * 10 ^ 16 < (4 * m + 2) * 10 ^ 16 := by
    exact_mod_cast hwide
  rw [hvalue] at hleading
  rw [sub_div, hlow, hhigh, zpow_sub₀ (by norm_num), div_lt_iff₀ (by positivity)]
  calc (10 : ℚ) ^ (neighbourhood m e).leadingExponent ≤ 4 * m * 2 ^ (e - 2) := hleading
    _ < ((4 * m + 2) * 10 ^ 16 - (4 * m - reach m e : Nat) * 10 ^ 16) * 2 ^ (e - 2) := by
      refine mul_lt_mul_of_pos_right ?_ hunit
      linarith
    _ = ((4 * m + 2) * 2 ^ (e - 2) - (4 * m - reach m e : Nat) * 2 ^ (e - 2)) *
        10 ^ (16 : Int) := by
      rw [show (10 : ℚ) ^ (16 : Int) = 10 ^ 16 by norm_cast]
      ring

/-- The digits of a real read back: they are a decimal in its neighbourhood. -/
theorem shortest_has (hm : Canonical m e) (hpos : 0 < m) :
    (neighbourhood m e).Has ((shortest m e).1 * 10 ^ (shortest m e).2) := by
  have hden := neighbourhood_den_pos m e
  have hreach := reach_cases m e
  have hunit : 0 < (scaled 1 (e - 2)).1 := by
    unfold scaled
    split <;> simp [twoTo]
  have hlow : (neighbourhood m e).low < (neighbourhood m e).value :=
    Nat.mul_lt_mul_of_pos_right (by change 4 * m - reach m e < 4 * m; omega) hunit
  have hhigh : (neighbourhood m e).value < (neighbourhood m e).high :=
    Nat.mul_lt_mul_of_pos_right (by omega) hunit
  have hgrid := Neighbourhood.exists_onGrid hden hlow hhigh (seventeen_digits hm hpos)
  rw [← Neighbourhood.contains_iff hden]
  have hlast : 16 < 17 := by decide
  refine Neighbourhood.search_contains hlast ?_
  rwa [show (neighbourhood m e).leadingExponent - (1 + 16 : Nat) + 1 =
    (neighbourhood m e).leadingExponent - 16 by omega]

theorem shortest_pos (hm : Canonical m e) (hpos : 0 < m) : 0 < (shortest m e).1 := by
  by_contra hzero
  have hhas := (has_bounds (shortest_has hm hpos)).1
  have hreach := reach_cases m e
  have hlow : (0 : ℚ) < (4 * m - reach m e : Nat) := by exact_mod_cast (by omega)
  have hunit : (0 : ℚ) < 2 ^ (e - 2) := by positivity
  rw [Nat.eq_zero_of_not_pos hzero, Nat.cast_zero, zero_mul] at hhas
  exact absurd (mul_pos hlow hunit) (not_lt.mpr hhas)

theorem Canonical.eq_of_shortest (hm : Canonical m e) (hmpos : 0 < m) (hn : Canonical n f)
    (hnpos : 0 < n) (h : ((shortest m e).1 : ℚ) * 10 ^ (shortest m e).2 =
      (shortest n f).1 * 10 ^ (shortest n f).2) : m = n ∧ e = f := by
  have hx := shortest_has hm hmpos
  rw [h] at hx
  exact hm.unique hn hx (shortest_has hn hnpos)

end Neighbourhoods

end Minifun.Binary64
