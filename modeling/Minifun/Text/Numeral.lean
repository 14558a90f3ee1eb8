import Minifun.Binary64.Basic
import Minifun.Text.Blank
import Minifun.Text.Digit

/-! # Numerals

The texts that denote a whole number or a real. Digits may be decimal digits of any script, single
underscores may stand between digits, and white space at both ends does not count. A whole number
has at most 4300 digits.
-/

namespace Minifun.Text

/-- Whether a character may surround a numeral: white space other than the information separators.
-/
def isMargin (c : Char) : Bool :=
  isBlank c && !(decide (28 ≤ c.toNat) && decide (c.toNat ≤ 31))

/-- The characters of a text without the white space around a numeral. -/
def numeralChars (s : String) : List Char :=
  dropEndWhile isMargin (s.toList.dropWhile isMargin)

/-- The values of the digits at the front that follow a digit, and what is left. -/
def moreDigits : List Char → List Nat × List Char
  | [] => ([], [])
  | '_' :: c :: cs =>
    match decimalValue? c with
    | some d => let r := moreDigits cs; (d :: r.1, r.2)
    | none => ([], '_' :: c :: cs)
  | c :: cs =>
    match decimalValue? c with
    | some d => let r := moreDigits cs; (d :: r.1, r.2)
    | none => ([], c :: cs)

def leadingDigits : List Char → List Nat × List Char
  | [] => ([], [])
  | c :: cs =>
    match decimalValue? c with
    | some d => let r := moreDigits cs; (d :: r.1, r.2)
    | none => ([], c :: cs)

def ofDigits (ds : List Nat) : Nat :=
  ds.foldl (fun n d => 10 * n + d) 0

def leadingSign : List Char → Bool × List Char
  | '-' :: cs => (true, cs)
  | '+' :: cs => (false, cs)
  | cs => (false, cs)

inductive IntFault where
  | malformed
  | tooLong (digits : Nat)
deriving DecidableEq, Repr, Inhabited

def mostDigits : Nat := 4300

def readInt (s : String) : Except IntFault Int :=
  let (negative, body) := leadingSign (numeralChars s)
  match leadingDigits body with
  | (d :: ds, []) =>
    if mostDigits < (d :: ds).length then .error (.tooLong (d :: ds).length)
    else
      let n := ofDigits (d :: ds)
      .ok (if negative then -(n : Int) else n)
  | _ => .error .malformed

def readExponent? : List Char → Option Int
  | [] => some 0
  | c :: cs =>
    if c = 'e' || c = 'E' then
      let (negative, body) := leadingSign cs
      match leadingDigits body with
      | (d :: ds, []) =>
        let n := ofDigits (d :: ds)
        some (if negative then -(n : Int) else n)
      | _ => none
    else none

def readDecimal? (negative : Bool) (cs : List Char) : Option Float :=
  let (whole, rest) := leadingDigits cs
  let (places, rest) :=
    match rest with
    | '.' :: rest' => leadingDigits rest'
    | _ => ([], rest)
  match whole ++ places with
  | [] => none
  | digits =>
    (readExponent? rest).map fun e =>
      Binary64.ofDecimal negative (ofDigits digits) (e - (places.length : Int))

/-- The real that a text denotes. The words for the infinite real and for what is not a number are
read in capital and small letters. -/
def readReal? (s : String) : Option Float :=
  let (negative, body) := leadingSign (numeralChars s)
  let word := String.ofList (body.map Char.toLower)
  if word = "inf" || word = "infinity" then some (Binary64.infinity negative)
  else if word = "nan" then some Binary64.notANumber
  else readDecimal? negative body

end Minifun.Text
