import Minifun.Binary64.Basic

/-! # The fewest digits that read back

The decimals that round to a positive real form an interval around it. Of all decimals in that
interval the one with the fewest digits is taken, and of those the nearest to the real.
-/

namespace Minifun.Binary64

/-- An interval of rationals around a value, all three with one denominator. -/
structure Neighbourhood where
  low : Nat
  value : Nat
  high : Nat
  den : Nat
  closed : Bool

/-- The rationals that round to `mantissa * 2 ^ exponent`. They reach half way to the next real on
each side, and below a power of two the next real is nearer. The ends round to the even mantissa. -/
def neighbourhood (mantissa : Nat) (exponent : Int) : Neighbourhood :=
  let below := if mantissa = twoTo 52 && decide (leastExponent < exponent) then 1 else 2
  let (unit, den) := scaled 1 (exponent - 2)
  { low := (4 * mantissa - below) * unit
    value := 4 * mantissa * unit
    high := (4 * mantissa + 2) * unit
    den := den
    closed := mantissa % 2 == 0 }

namespace Neighbourhood

def contains (v : Neighbourhood) (digits : Nat) (exponent : Int) : Bool :=
  let (point, low, high) :=
    if exponent < 0 then
      (digits * v.den, v.low * tenTo exponent.natAbs, v.high * tenTo exponent.natAbs)
    else (digits * tenTo exponent.toNat * v.den, v.low, v.high)
  if v.closed then decide (low ≤ point) && decide (point ≤ high)
  else decide (low < point) && decide (point < high)

/-- The exponent of the first decimal digit of the value. -/
def leadingExponent (v : Neighbourhood) : Int :=
  ((Nat.toDigits 10 (v.value * tenTo 400 / v.den)).length : Int) - 401

/-- The value in units of `10 ^ exponent`, rounded down, with the remainder and its divisor. -/
def grid (v : Neighbourhood) (exponent : Int) : Nat × Nat × Nat :=
  let (num, den) :=
    if exponent < 0 then (v.value * tenTo exponent.natAbs, v.den)
    else (v.value, v.den * tenTo exponent.toNat)
  (num / den, num % den, den)

/-- The decimal in units of `10 ^ exponent` that lies in the neighbourhood, if there is one: of the
two next to the value the one inside, and of two inside the nearer, or the even one. -/
def onGrid (v : Neighbourhood) (exponent : Int) : Option Nat :=
  let (q, r, den) := v.grid exponent
  match v.contains q exponent, v.contains (q + 1) exponent with
  | false, false => none
  | true, false => some q
  | false, true => some (q + 1)
  | true, true => some (if 2 * r < den || (2 * r = den && q % 2 = 0) then q else q + 1)

/-- The first grid with a decimal in the neighbourhood, from `count` digits on and for at most
`tries` further digits. -/
def search (v : Neighbourhood) (leading : Int) : (tries count : Nat) → Nat × Int
  | 0, count =>
    let exponent := leading - count + 1
    ((v.grid exponent).1, exponent)
  | tries + 1, count =>
    let exponent := leading - count + 1
    match v.onGrid exponent with
    | some digits => (digits, exponent)
    | none => v.search leading tries (count + 1)

end Neighbourhood

/-- The digits of a positive real and the exponent of the last of them. -/
def shortest (mantissa : Nat) (exponent : Int) : Nat × Int :=
  let v := neighbourhood mantissa exponent
  v.search v.leadingExponent 17 1

end Minifun.Binary64
