import Minifun.Text.Lines
import Minifun.Value.Basic

/-! # Dumps of syntax trees

A tree is dumped with one node a line. What belongs to a node is indented by two more blanks, and a
closing bracket stands under the line that opened it. A negative indentation is none, but what
belongs to the node counts on from it.
-/

namespace Minifun.Term

open Text (joinLines)

def margin (indent : Int) : String :=
  Text.blanks indent.toNat

mutual

@[simp] def dumpLines (indent : Int) : Expr → List String
  | literal v _ => [margin indent ++ "Literal(" ++ v.text ++ ")"]
  | ident x _ => [margin indent ++ "Id(" ++ x ++ ")"]
  | unary op e _ =>
    (margin indent ++ "UnaryOp(" ++ op.symbol) :: dumpLines (indent + 2) e ++
      [margin indent ++ ")"]
  | binary op a b _ =>
    (margin indent ++ "BinaryOp(" ++ op.symbol) :: dumpLines (indent + 2) a ++
      dumpLines (indent + 2) b ++ [margin indent ++ ")"]
  | list es _ => (margin indent ++ "List(") :: dumpAll (indent + 2) es ++ [margin indent ++ ")"]
  | head e _ => (margin indent ++ "Head(") :: dumpLines (indent + 2) e ++ [margin indent ++ ")"]
  | tail e _ => (margin indent ++ "Tail(") :: dumpLines (indent + 2) e ++ [margin indent ++ ")"]
  | length e _ => (margin indent ++ "Len(") :: dumpLines (indent + 2) e ++ [margin indent ++ ")"]
  | cond c a b _ =>
    (margin indent ++ "If(") :: dumpLines (indent + 2) c ++
      (margin (indent + 2) ++ "then:") :: dumpLines (indent + 4) a ++
      (margin (indent + 2) ++ "else:") :: dumpLines (indent + 4) b ++ [margin indent ++ ")"]
  | lambda x body _ =>
    (margin indent ++ "Lambda(") :: (margin (indent + 2) ++ "param: " ++ x) ::
      (margin (indent + 2) ++ "body:") :: dumpLines (indent + 4) body ++ [margin indent ++ ")"]
  | apply f a _ =>
    (margin indent ++ "Apply(") :: (margin (indent + 2) ++ "function:") ::
      dumpLines (indent + 4) f ++ (margin (indent + 2) ++ "argument:") ::
      dumpLines (indent + 4) a ++ [margin indent ++ ")"]
  | letIn x v body _ =>
    (margin indent ++ "Let(" ++ x) :: dumpLines (indent + 2) v ++
      (margin (indent + 2) ++ "in:") :: dumpLines (indent + 4) body ++ [margin indent ++ ")"]
  | val x v _ =>
    (margin indent ++ "Val(" ++ x) :: dumpLines (indent + 2) v ++ [margin indent ++ ")"]
  | map f xs _ =>
    (margin indent ++ "Map(") :: dumpLines (indent + 2) f ++ dumpLines (indent + 2) xs ++
      [margin indent ++ ")"]
  | fold side f i xs _ =>
    (margin indent ++ "Fold(" ++ side.keyword) :: dumpLines (indent + 2) f ++
      dumpLines (indent + 2) i ++ dumpLines (indent + 2) xs ++ [margin indent ++ ")"]
  | block ss _ =>
    (margin indent ++ "Program(") :: dumpAll (indent + 2) ss ++ [margin indent ++ ")"]

@[simp] def dumpAll (indent : Int) : List Expr → List String
  | [] => []
  | e :: es => dumpLines indent e ++ dumpAll indent es

end

def dump (indent : Int) (e : Expr) : String :=
  joinLines (dumpLines indent e)

end Minifun.Term
