/-! # Reals of double precision

A finite real is a whole number times a power of two. Reading its parts and rounding a quotient to
the nearest real are done in whole numbers, so that both are exact.
-/

namespace Minifun.Binary64

def twoTo (n : Nat) : Nat := Nat.pow 2 n

def tenTo (n : Nat) : Nat := Nat.pow 10 n

/-- What a real is: not a number, infinite, or `mantissa * 2 ^ exponent` with a sign. -/
inductive Parts where
  | nan
  | infinite (negative : Bool)
  | finite (negative : Bool) (mantissa : Nat) (exponent : Int)
deriving DecidableEq, Repr

def leastExponent : Int := -1074

def partsOfBits (bits : Nat) : Parts :=
  let negative := bits / twoTo 63 == 1
  let biased := bits / twoTo 52 % twoTo 11
  let fraction := bits % twoTo 52
  if biased = 2047 then
    if fraction = 0 then .infinite negative else .nan
  else if biased = 0 then .finite negative fraction leastExponent
  else .finite negative (fraction + twoTo 52) (leastExponent + (biased - 1 : Nat))

def parts (x : Float) : Parts :=
  partsOfBits x.toBits.toNat

/-- The bits of the infinite real, without the sign. -/
def infiniteBits : Nat := 2047 * twoTo 52

/-- A quotient rounded to the nearest whole number, and half way to the even one. -/
def roundDiv (num den : Nat) : Nat :=
  let q := num / den
  let r := num % den
  if 2 * r < den then q
  else if den < 2 * r then q + 1
  else if q % 2 = 0 then q else q + 1

/-- A natural number times a power of two, as a quotient. -/
def scaled (n : Nat) (exponent : Int) : Nat × Nat :=
  if exponent < 0 then (n, twoTo exponent.natAbs) else (n * twoTo exponent.toNat, 1)

/-- The exponent of the real nearest to `num / den`: the one for which the mantissa has 53 digits in
base two, but not less than the least one. -/
def exponentOf (num den : Nat) : Int :=
  let guess : Int := (num.log2 : Int) - (den.log2 : Int) - 52
  let (n, d) := scaled num (-guess)
  let exact := if n < den * d * twoTo 52 then guess - 1 else guess
  max exact leastExponent

/-- The bits, without the sign, of the real nearest to `num / den`. What is too large becomes the
infinite real. -/
def nearestBits (num den : Nat) : Nat :=
  if num = 0 then 0
  else
    let e := exponentOf num den
    let (n, d) := scaled num (-e)
    let mantissa := roundDiv n (den * d)
    min (mantissa + (e - leastExponent).toNat * twoTo 52) infiniteBits

/-- A real from its bits without the sign, and the sign. -/
def signed (negative : Bool) (bits : Nat) : Float :=
  Float.ofBits (UInt64.ofNat (if negative then bits + twoTo 63 else bits))

def ofRatio (negative : Bool) (num den : Nat) : Float :=
  signed negative (nearestBits num den)

/-- The real nearest to `digits * 10 ^ exponent`, with a sign. Beyond four hundred decimal places
either way the result is infinite or zero whatever the digits are. -/
def ofDecimal (negative : Bool) (digits : Nat) (exponent : Int) : Float :=
  let size : Int := (Nat.toDigits 10 digits).length
  if digits = 0 || exponent + size < -400 then signed negative 0
  else if 400 < exponent then signed negative infiniteBits
  else if exponent < 0 then ofRatio negative digits (tenTo exponent.natAbs)
  else ofRatio negative (digits * tenTo exponent.toNat) 1

def infinity (negative : Bool) : Float := signed negative infiniteBits

def notANumber : Float := signed false (infiniteBits + twoTo 51)

end Minifun.Binary64
