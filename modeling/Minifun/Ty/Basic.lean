/-! # Types

Types are built from three constants by lists and functions. A variable may carry a constraint,
which says what it can stand for. The identity of a variable is its number alone, so there are two
ways to compare types: equality, and agreement up to the constraints of variables.

Statements that are none at all have no type. Where a tree puts them in the place of an expression,
`nothing` stands for the missing type.
-/

namespace Minifun

inductive Constraint where
  | numeric
  | other (name : String)
deriving DecidableEq, Repr, Inhabited

inductive Ty where
  | int
  | real
  | bool
  | list (elem : Ty)
  | fn (param result : Ty)
  | var (id : Int) (constraint : Option Constraint)
  /-- The type that no statements have. -/
  | nothing
deriving DecidableEq, Repr, Inhabited

namespace Constraint

def name : Constraint → String
  | numeric => "numeric"
  | other name => name

def ofName (name : String) : Constraint :=
  if name = "numeric" then .numeric else .other name

/-- Whether a variable with the constraint can stand for a type. A variable is acceptable if it is
free or carries the same constraint; of the other types only numbers are, and only to the numeric
constraint. -/
def accepts (c : Constraint) : Ty → Bool
  | .var _ none => true
  | .var _ (some d) => c == d
  | .int | .real => c == .numeric
  | _ => false

end Constraint

namespace Ty

/-- Whether two types agree when the constraints of their variables are left aside. -/
def same : Ty → Ty → Bool
  | .int, .int | .real, .real | .bool, .bool | .nothing, .nothing => true
  | .list a, .list b => same a b
  | .fn a b, .fn c d => same a c && same b d
  | .var i _, .var j _ => i == j
  | _, _ => false

/-- The variables of a type in the order in which they are written, with repeats. -/
@[simp] def vars : Ty → List (Int × Option Constraint)
  | .int | .real | .bool | .nothing => []
  | .list a => a.vars
  | .fn a b => a.vars ++ b.vars
  | .var i c => [(i, c)]

def occurs (id : Int) (t : Ty) : Bool :=
  t.vars.any fun v => v.1 == id

@[simp] def mapVars (f : Int → Option Constraint → Ty) : Ty → Ty
  | .int => .int
  | .real => .real
  | .bool => .bool
  | .list a => .list (a.mapVars f)
  | .fn a b => .fn (a.mapVars f) (b.mapVars f)
  | .var i c => f i c
  | .nothing => .nothing

def isNothing : Ty → Bool
  | .nothing => true
  | _ => false

def isProper : Ty → Bool
  | .int | .real | .bool | .var _ _ => true
  | .list a => a.isProper
  | .fn a b => a.isProper && b.isProper
  | .nothing => false

def text : Ty → String
  | .int => "int"
  | .real => "real"
  | .bool => "bool"
  | .list a => "[ " ++ a.text ++ " ]"
  | .fn a b => "(" ++ a.text ++ " -> " ++ b.text ++ ")"
  | .var i _ => "t" ++ toString i
  | .nothing => "None"

/-- The written form of a type in a report, where a variable is shown with its constraint. -/
def describe : Ty → String
  | .var i (some c) => (Ty.var i (some c)).text ++ " (" ++ c.name ++ ")"
  | t => t.text

def constrained (t : Ty) : List Int :=
  (t.vars.filter fun v => v.2.isSome).map (·.1)

@[simp] theorem mapVars_var (t : Ty) : t.mapVars .var = t := by
  induction t <;> simp_all [mapVars]

theorem mapVars_mapVars (f g : Int → Option Constraint → Ty) (t : Ty) :
    (t.mapVars f).mapVars g = t.mapVars fun i c => (f i c).mapVars g := by
  induction t <;> simp_all [mapVars]

theorem vars_mapVars (f : Int → Option Constraint → Ty) (t : Ty) :
    (t.mapVars f).vars = t.vars.flatMap fun v => (f v.1 v.2).vars := by
  induction t <;> simp_all [mapVars, vars]

def bare (t : Ty) : Ty :=
  t.mapVars fun i _ => .var i none

theorem same_iff (a b : Ty) : a.same b = true ↔ a.bare = b.bare := by
  induction a generalizing b with
  | int => cases b <;> simp [same, bare, mapVars]
  | real => cases b <;> simp [same, bare, mapVars]
  | bool => cases b <;> simp [same, bare, mapVars]
  | list a ih => cases b <;> simp_all [same, bare, mapVars]
  | fn a r iha ihr => cases b <;> simp_all [same, bare, mapVars]
  | var i c => cases b <;> simp [same, bare, mapVars]
  | nothing => cases b <;> simp [same, bare, mapVars]

end Ty

end Minifun
