import Minifun.Loc
import Minifun.Term.Operator

/-! # Terms

The syntax trees of the language over a type of constants. A parsed program has `val` only as a
statement and no inner blocks, but trees in general may have them anywhere.
-/

namespace Minifun

inductive Term (α : Type) where
  | literal (value : α) (loc : Option Loc)
  | ident (name : String) (loc : Option Loc)
  | unary (op : UnOp) (operand : Term α) (loc : Option Loc)
  | binary (op : BinOp) (left right : Term α) (loc : Option Loc)
  | list (elems : List (Term α)) (loc : Option Loc)
  | head (arg : Term α) (loc : Option Loc)
  | tail (arg : Term α) (loc : Option Loc)
  | length (arg : Term α) (loc : Option Loc)
  | cond (test yes no : Term α) (loc : Option Loc)
  | lambda (param : String) (body : Term α) (loc : Option Loc)
  | apply (function argument : Term α) (loc : Option Loc)
  | letIn (name : String) (value body : Term α) (loc : Option Loc)
  | val (name : String) (value : Term α) (loc : Option Loc)
  | map (function list : Term α) (loc : Option Loc)
  | fold (side : Side) (function initial list : Term α) (loc : Option Loc)
  | block (statements : List (Term α)) (loc : Option Loc)
deriving Inhabited

namespace Term

variable {α : Type}

def loc : Term α → Option Loc
  | literal _ l | ident _ l | unary _ _ l | binary _ _ _ l | list _ l | head _ l | tail _ l
  | length _ l | cond _ _ _ l | lambda _ _ l | apply _ _ l | letIn _ _ _ l | val _ _ l
  | map _ _ l | fold _ _ _ _ l | block _ l => l

def isLambda : Term α → Bool
  | lambda _ _ _ => true
  | _ => false

end Term

end Minifun
