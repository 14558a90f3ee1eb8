import Minifun.Breakdown
import Minifun.Report.Diagnostic

/-! # Faults of evaluation

Why an evaluation ends without an answer. Most causes are errors of the language. Calls that nest
too deeply become one at the statement they belong to. The rest are breakdowns.
-/

namespace Minifun

inductive EvalCause where
  | unbound (name : String) (similar : List String)
  | notAValue
  | notAFunction (what : String) (got : Class)
  | notAList (what : String) (got : Class)
  | emptyList (operation : String)
  | divisionByZero
  | mixedOperands (symbol : String) (left right : Class)
  | badOperands (symbol : String) (left right : Class)
  | badNegation (got : Class)
  | badNot (got : Class)
  | badLogic (symbol : String) (got : Class)
  | badConcat (left right : Class)
  | mixedConcat (left right : Class)
  | mixedElements (first other : Class)
  | nestedList
  | badCondition (got : Class)
  | alreadyDefined (name : String)
  | notCurried (keyword : String)
  | unknownOperator (symbol : String)
  | tooDeep
deriving DecidableEq, Repr, Inhabited

structure EvalError where
  cause : EvalCause
  loc : Option Loc
deriving DecidableEq, Repr, Inhabited

inductive Stop where
  | error (e : EvalError)
  /-- The bound on nested calls was reached. -/
  | outOfDepth
  /-- Something outside the errors of the language. -/
  | broken (breakdown : Breakdown)
deriving DecidableEq, Repr, Inhabited

namespace EvalCause

def message : EvalCause → String
  | unbound name _ => "Unbound identifier: " ++ name
  | notAValue => "'val' is only allowed as a top-level statement"
  | notAFunction what got => what ++ " must be a function, got " ++ got.text
  | notAList what got => what ++ " must be a list, got " ++ got.text
  | emptyList operation => operation ++ " of an empty list"
  | divisionByZero => "Division by zero"
  | mixedOperands symbol left right =>
    "Mixed mode operation not supported: " ++ left.text ++ " " ++ symbol ++ " " ++ right.text
  | badOperands symbol left right =>
    "Operator '" ++ symbol ++ "' cannot be applied to " ++ left.text ++ " and " ++ right.text
  | badNegation got => "Cannot negate " ++ got.text
  | badNot got => "'not' expects bool, got " ++ got.text
  | badLogic symbol got => "'" ++ symbol ++ "' expects bool operands, got " ++ got.text
  | badConcat left right => "'++' expects two lists, got " ++ left.text ++ " and " ++ right.text
  | mixedConcat left right => "Mixed mode list not supported: " ++ left.text ++ " ++ " ++ right.text
  | mixedElements first other =>
    "Mixed mode list not supported: " ++ first.text ++ " and " ++ other.text
  | nestedList => "Nested lists not supported"
  | badCondition got => "if condition must be bool, got " ++ got.text
  | alreadyDefined name => "'" ++ name ++ "' is already defined"
  | notCurried keyword => keyword ++ ": function must take two arguments (curried)."
  | unknownOperator symbol => "Unknown operator '" ++ symbol ++ "'"
  | tooDeep => "Maximum recursion depth exceeded"

/-- The kind of an error. Operands of a wrong class have none. -/
def kind : EvalCause → Option ErrorKind
  | unbound _ _ => some .unknownVariable
  | notAValue => some .notAValue
  | notAFunction _ _ => some .notAFunction
  | notAList _ _ | badConcat _ _ => some .notAList
  | emptyList _ => some .emptyList
  | divisionByZero => some .divisionByZero
  | mixedOperands _ _ _ | mixedConcat _ _ | mixedElements _ _ => some .mixedMode
  | nestedList => some .nestedList
  | alreadyDefined _ => some .duplicateDefinition
  | notCurried _ => some .notCurried
  | tooDeep => some .recursionDepth
  | badOperands _ _ _ | badNegation _ | badNot _ | badLogic _ _ | badCondition _
  | unknownOperator _ => none

def similar : EvalCause → List String
  | unbound _ names => names
  | _ => []

end EvalCause

/-- The class of a value. Other answers have none. -/
def Value.classOf (v : Value) : Except Stop Class :=
  if v.isValue then .ok v.cls else .error (.broken (.unclassed v.cls))

end Minifun
