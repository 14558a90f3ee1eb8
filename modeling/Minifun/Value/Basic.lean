import Minifun.Binary64.Written
import Minifun.Term.Basic
import Minifun.Text.Numeral
import Minifun.Value.Frame

/-! # Values and scopes

A value is a number, a truth value, a list or a closure: a function with the scope it was made in.
Statements also answer with a name, and a program without statements with nothing; neither can be
used where a value is needed.

A closure that can call itself by a name has a scope that ties a knot: looking the name up gives the
closure again, with this very scope.
-/

namespace Minifun

/-- What names stand for, innermost first. -/
inductive Scope (α : Type) where
  | empty
  | frame (bindings : List (String × α)) (parent : Scope α)
  /-- A name for the closure that has this scope. -/
  | knot (name param : String) (body : Term α) (parent : Scope α)

inductive Value where
  | int (n : Int)
  | real (x : Float)
  | bool (b : Bool)
  | list (elems : List Value)
  | closure (param : String) (body : Term Value) (scope : Scope Value)
  /-- The answer of a statement that binds a name. -/
  | name (x : String)
  /-- The answer of a program without statements. -/
  | nothing

instance : Inhabited Value := ⟨.nothing⟩

abbrev Expr := Term Value

inductive Class where
  | int | real | bool | list | function | name | nothing
deriving DecidableEq, Repr, Inhabited

def Class.text : Class → String
  | .int => "int"
  | .real => "real"
  | .bool => "bool"
  | .list => "list"
  | .function => "function"
  | .name => "name"
  | .nothing => "nothing"

def Class.isNumeric : Class → Bool
  | .int | .real => true
  | _ => false

namespace Value

def cls : Value → Class
  | int _ => .int
  | real _ => .real
  | bool _ => .bool
  | list _ => .list
  | closure _ _ _ => .function
  | name _ => .name
  | nothing => .nothing

/-- Whether an answer can be used as a value. -/
def isValue : Value → Bool
  | name _ | nothing => false
  | _ => true

def isList : Value → Bool
  | list _ => true
  | _ => false

def sameClass (a b : Value) : Bool :=
  a.cls == b.cls

mutual

def text : Value → String
  | int n => toString n
  | real x => Binary64.text x
  | bool b => if b then "true" else "false"
  | list elems => "[" ++ ", ".intercalate (texts elems) ++ "]"
  | closure param _ _ => "<closure " ++ param ++ " -> ...>"
  | name x => x
  | nothing => "None"

def texts : List Value → List String
  | [] => []
  | v :: vs => text v :: texts vs

end

mutual

/-- Whether an answer has a written form. Whole numbers of too many digits have none. -/
def isWritten : Value → Bool
  | int n => decide ((toString n.natAbs).length ≤ Text.mostDigits)
  | list elems => allWritten elems
  | _ => true

def allWritten : List Value → Bool
  | [] => true
  | v :: vs => isWritten v && allWritten vs

end

def shown : Value → String
  | nothing => "()"
  | v => v.text

end Value

namespace Scope

def lookup (name : String) : Scope Value → Option Value
  | empty => none
  | frame bindings parent =>
    match Frame.find? bindings name with
    | some v => some v
    | none => lookup name parent
  | knot x param body parent =>
    if x = name then some (.closure param body (.knot x param body parent))
    else lookup name parent

/-- All bindings of a scope, inner ones first, with those that inner ones hide. -/
def bindings : Scope Value → List (String × Value)
  | empty => []
  | frame bs parent => bs ++ bindings parent
  | knot x param body parent =>
    (x, .closure param body (.knot x param body parent)) :: bindings parent

def names (s : Scope Value) : List String :=
  (Frame.distinct s.bindings).names

/-- The scope of one frame that binds every name as the given scope does. -/
def snapshot (s : Scope Value) : Scope Value :=
  frame (Frame.distinct s.bindings) .empty

theorem lookup_eq_find? (s : Scope Value) (x : String) :
    s.lookup x = Frame.find? s.bindings x := by
  induction s with
  | empty => rfl
  | frame bs parent ih =>
    simp only [lookup, bindings, ih]
    simp only [Frame.find?, List.lookup_append]
    cases List.lookup x bs <;> rfl
  | knot y p body parent ih =>
    by_cases h : y = x
    · simp [lookup, bindings, h]
    · have : x ≠ y := fun e => h e.symm
      simp [lookup, bindings, h, this, ih]

@[simp] theorem lookup_snapshot (s : Scope Value) (x : String) :
    s.snapshot.lookup x = s.lookup x := by
  rw [lookup_eq_find?, lookup_eq_find?]
  simp [snapshot, bindings]

end Scope

end Minifun
