import Minifun.Text.Quoted
import Minifun.Value.Basic

/-! # Breakdowns

What can go wrong outside the errors of the language: no report explains it, and it ends whatever
was under way.
-/

namespace Minifun

/-- What went wrong outside the errors of the language. -/
inductive Breakdown where
  | badInt (text : String)
  | longInt (digits : Nat)
  | badReal (text : String)
  | infiniteRemainder
  /-- An answer with a whole number of too many digits to be written. -/
  | unwritten
  | unclassed (cls : Class)
  /-- Calls that nest too deeply outside any statement. -/
  | outOfDepth
  /-- Something that leads back to itself, followed over and over. -/
  | endless
  | outOfRange
  /-- A limit on recursion that no machine word holds. -/
  | hugeLimit
  /-- A path with a character that ends every path. -/
  | brokenPath
deriving DecidableEq, Repr, Inhabited

/-- The message of a breakdown. A long numeral is cut. -/
def Breakdown.message : Breakdown → String
  | .badInt text =>
    "invalid literal for int() with base 10: " ++
      String.ofList ((Text.quote text).toList.take 200)
  | .longInt digits =>
    "Exceeds the limit (4300 digits) for integer string conversion: value has " ++
      toString digits ++ " digits; use sys.set_int_max_str_digits() to increase the limit"
  | .unwritten =>
    "Exceeds the limit (4300 digits) for integer string conversion; " ++
      "use sys.set_int_max_str_digits() to increase the limit"
  | .badReal text => "could not convert string to float: " ++ Text.quote text
  | .infiniteRemainder => "math domain error"
  | .unclassed .nothing => "'NoneType' object has no attribute 'kind'"
  | .unclassed _ => "'str' object has no attribute 'kind'"
  | .outOfDepth | .endless => "maximum recursion depth exceeded"
  | .outOfRange => "list index out of range"
  | .hugeLimit => "Python int too large to convert to C int"
  | .brokenPath => "embedded null byte"

end Minifun
