import Minifun.Binary64.Basic
import Minifun.Eval.Fault

/-! # Operations on values

Whole numbers and reals never mix. Division of whole numbers truncates toward zero, and the
remainder has the sign of the dividend; so does the remainder of reals. That one is exact: both
reals are multiples of one power of two, so that it is a remainder of whole numbers.
-/

namespace Minifun

/-- The remainder of a division that truncates the quotient. An infinite dividend has none unless
the divisor is not a number; an infinite divisor leaves the dividend as it is. A zero divisor is for
the caller to refuse. -/
def Binary64.remainder? (x y : Float) : Option Float :=
  match parts x, parts y with
  | .nan, _ => some x
  | _, .nan => some y
  | .infinite _, _ => none
  | .finite _ _ _, .infinite _ => some x
  | .finite negative m e, .finite _ n f =>
    let least := min e f
    let r := m * twoTo (e - least).toNat % (n * twoTo (f - least).toNat)
    let (num, den) := scaled r least
    some (ofRatio negative num den)

/-- The quotient of two whole numbers. Their sizes are divided, and the result is negated if one of
the numbers is negative and the other one is not. -/
def truncatedQuotient (a b : Int) : Int :=
  let size : Int := (a.natAbs / b.natAbs : Nat)
  if (0 ≤ a ↔ 0 ≤ b) then size else -size

def ArithOp.onInts : ArithOp → Int → Int → Option Int
  | .add, a, b => some (a + b)
  | .sub, a, b => some (a - b)
  | .mul, a, b => some (a * b)
  | .div, a, b => if b = 0 then none else some (truncatedQuotient a b)
  | .mod, a, b => if b = 0 then none else some (a - b * truncatedQuotient a b)

def ArithOp.onReals (op : ArithOp) (x y : Float) (loc : Option Loc) : Except Stop Value :=
  match op with
  | .add => .ok (.real (x + y))
  | .sub => .ok (.real (x - y))
  | .mul => .ok (.real (x * y))
  | .div => if y == 0 then .error (.error ⟨.divisionByZero, loc⟩) else .ok (.real (x / y))
  | .mod =>
    if y == 0 then .error (.error ⟨.divisionByZero, loc⟩)
    else
      match Binary64.remainder? x y with
      | some r => .ok (.real r)
      | none => .error (.broken .infiniteRemainder)

def RelOp.onInts : RelOp → Int → Int → Bool
  | .lt, a, b => decide (a < b)
  | .le, a, b => decide (a ≤ b)
  | .gt, a, b => decide (b < a)
  | .ge, a, b => decide (b ≤ a)
  | .eq, a, b => a == b
  | .ne, a, b => a != b

def RelOp.onReals : RelOp → Float → Float → Bool
  | .lt, x, y => decide (x < y)
  | .le, x, y => decide (x ≤ y)
  | .gt, x, y => decide (y < x)
  | .ge, x, y => decide (y ≤ x)
  | .eq, x, y => x == y
  | .ne, x, y => !(x == y)

namespace Value

def operandError (symbol : String) (a b : Value) : EvalCause :=
  if a.cls.isNumeric && b.cls.isNumeric then .mixedOperands symbol a.cls b.cls
  else .badOperands symbol a.cls b.cls

def arithmetic (op : ArithOp) (a b : Value) (loc : Option Loc) : Except Stop Value :=
  match a, b with
  | .int m, .int n =>
    match op.onInts m n with
    | some k => .ok (.int k)
    | none => .error (.error ⟨.divisionByZero, loc⟩)
  | .real x, .real y => op.onReals x y loc
  | a, b => .error (.error ⟨operandError op.symbol a b, loc⟩)

def compare (op : RelOp) (a b : Value) (loc : Option Loc) : Except Stop Value :=
  match a, b with
  | .int m, .int n => .ok (.bool (op.onInts m n))
  | .real x, .real y => .ok (.bool (op.onReals x y))
  | a, b => .error (.error ⟨operandError op.symbol a b, loc⟩)

/-- Two lists put together, if their elements are of one class. -/
def append (a b : Value) (loc : Option Loc) : Except Stop Value :=
  match a, b with
  | .list xs, .list ys =>
    match xs, ys with
    | x :: _, y :: _ =>
      if x.sameClass y then .ok (.list (xs ++ ys))
      else do
        let left ← x.classOf
        let right ← y.classOf
        .error (.error ⟨.mixedConcat left right, loc⟩)
    | _, _ => .ok (.list (xs ++ ys))
  | a, b => .error (.error ⟨.badConcat a.cls b.cls, loc⟩)

/-- The operation of an operator that needs both its operands. -/
def operate (op : BinOp) (a b : Value) (loc : Option Loc) : Except Stop Value :=
  match op with
  | .arith op => arithmetic op a b loc
  | .rel op => compare op a b loc
  | .concat => append a b loc
  | op => .error (.error ⟨.unknownOperator op.symbol, loc⟩)

def negate (op : UnOp) (a : Value) (loc : Option Loc) : Except Stop Value :=
  match op, a with
  | .neg, .int n => .ok (.int (-n))
  | .neg, .real x => .ok (.real (-x))
  | .neg, a => .error (.error ⟨.badNegation a.cls, loc⟩)
  | _, .bool b => .ok (.bool !b)
  | _, a => .error (.error ⟨.badNot a.cls, loc⟩)

end Value

/-- Whether a truth value on the left decides a logical operator. -/
def LogicOp.decides : LogicOp → Bool → Bool
  | .and, b => !b
  | .or, b => b

end Minifun
