/-! # Operators

The operators of expressions, by the kind of operands they take. A tree may also hold an operator
that the language does not have; it is kept with its symbol.
-/

namespace Minifun

inductive ArithOp where
  | add | sub | mul | div | mod
deriving DecidableEq, Repr, Inhabited

inductive RelOp where
  | lt | le | gt | ge | eq | ne
deriving DecidableEq, Repr, Inhabited

/-- The operators on truth values; the right operand is needed only if the left one does not
decide. -/
inductive LogicOp where
  | and | or
deriving DecidableEq, Repr, Inhabited

inductive BinOp where
  | arith (op : ArithOp)
  | rel (op : RelOp)
  | logic (op : LogicOp)
  | concat
  | other (symbol : String)
deriving DecidableEq, Repr, Inhabited

/-- The operators with one operand. What is not the minus sign is taken for `not`. -/
inductive UnOp where
  | neg
  | not
  | other (symbol : String)
deriving DecidableEq, Repr, Inhabited

def ArithOp.symbol : ArithOp → String
  | .add => "+"
  | .sub => "-"
  | .mul => "*"
  | .div => "/"
  | .mod => "mod"

def RelOp.symbol : RelOp → String
  | .lt => "<"
  | .le => "<="
  | .gt => ">"
  | .ge => ">="
  | .eq => "="
  | .ne => "!="

def LogicOp.symbol : LogicOp → String
  | .and => "and"
  | .or => "or"

namespace BinOp

def symbol : BinOp → String
  | arith op => op.symbol
  | rel op => op.symbol
  | logic op => op.symbol
  | concat => "++"
  | other symbol => symbol

def all : List BinOp :=
  [.arith .add, .arith .sub, .arith .mul, .arith .div, .arith .mod,
    .rel .lt, .rel .le, .rel .gt, .rel .ge, .rel .eq, .rel .ne, .logic .and, .logic .or, .concat]

def ofSymbol (symbol : String) : BinOp :=
  (all.find? fun op => op.symbol == symbol).getD (.other symbol)

end BinOp

namespace UnOp

def symbol : UnOp → String
  | neg => "-"
  | not => "not"
  | other symbol => symbol

def ofSymbol (symbol : String) : UnOp :=
  if symbol = "-" then .neg else if symbol = "not" then .not else .other symbol

end UnOp

/-- From which end a list is folded. -/
inductive Side where
  | left | right
deriving DecidableEq, Repr, Inhabited

def Side.keyword : Side → String
  | .left => "foldl"
  | .right => "foldr"

end Minifun
