import Minifun.Binary64.Shortest
import Minifun.Text.Blank

/-! # How a real is written

The digits are the fewest that read back. Numbers of a moderate size are written positionally and
keep at least one place after the point; the others have an exponent with its sign.
-/

namespace Minifun.Binary64

structure WrittenForm where
  /-- The least exponent of the first digit that is written positionally. -/
  leastPositional : Int
  /-- The first exponent of the first digit that is no longer written positionally. -/
  endPositional : Int
  /-- The least number of digits of an exponent. -/
  exponentDigits : Nat

/-- Reals are positional from a ten thousandth up to ten to the sixteenth, and an exponent has two
digits at least. -/
def WrittenForm.standard : WrittenForm := ⟨-4, 16, 2⟩

def writeExponent (form : WrittenForm) (e : Int) : List Char :=
  let digits := Nat.toDigits 10 e.natAbs
  (if e < 0 then '-' else '+') ::
    (List.replicate (form.exponentDigits - digits.length) '0' ++ digits)

/-- Digits with the point after the first `whole` of them, and at least one digit on each side. -/
def placePoint (digits : List Char) (whole : Int) : List Char :=
  if whole ≤ 0 then '0' :: '.' :: (List.replicate whole.natAbs '0' ++ digits)
  else
    let whole := whole.toNat
    let front := digits.take whole ++ List.replicate (whole - digits.length) '0'
    match digits.drop whole with
    | [] => front ++ ['.', '0']
    | rest => front ++ '.' :: rest

/-- Digits in scientific form, with a point only if there is more than one digit. -/
def writeScientific (form : WrittenForm) (digits : List Char) (leading : Int) : List Char :=
  match digits with
  | [] => []
  | d :: rest =>
    (if rest.isEmpty then [d] else d :: '.' :: rest) ++ 'e' :: writeExponent form leading

/-- The decimal `digits * 10 ^ exponent`. Zeros at its end are no digits of it. -/
def writeDecimal (form : WrittenForm) (digits : Nat) (exponent : Int) : List Char :=
  let all := Nat.toDigits 10 digits
  let leading : Int := exponent + all.length - 1
  let significant := Text.dropEndWhile (· == '0') all
  if form.leastPositional ≤ leading ∧ leading < form.endPositional then
    placePoint significant (leading + 1)
  else writeScientific form significant leading

def write (form : WrittenForm) : Parts → List Char
  | .nan => ['n', 'a', 'n']
  | .infinite negative => if negative then ['-', 'i', 'n', 'f'] else ['i', 'n', 'f']
  | .finite negative mantissa exponent =>
    let digits :=
      if mantissa = 0 then ['0', '.', '0']
      else
        let (digits, place) := shortest mantissa exponent
        writeDecimal form digits place
    if negative then '-' :: digits else digits

def text (x : Float) : String :=
  String.ofList (write .standard (parts x))

end Minifun.Binary64
