/-! # Sorting

Lists are sorted by insertion. Elements that are equal in the order keep theirs.
-/

namespace Minifun.Text

variable {α : Type}

/-- A sorted list with one more element, before those that are not less. -/
def insertBy (le : α → α → Bool) (a : α) : List α → List α
  | [] => [a]
  | b :: bs => if le a b then a :: b :: bs else b :: insertBy le a bs

def sortBy (le : α → α → Bool) : List α → List α
  | [] => []
  | a :: as => insertBy le a (sortBy le as)

def charsLe : List Char → List Char → Bool
  | [], _ => true
  | _ :: _, [] => false
  | a :: as, b :: bs =>
    if a.toNat < b.toNat then true
    else if b.toNat < a.toNat then false
    else charsLe as bs

def nameLe (a b : String) : Bool :=
  charsLe a.toList b.toList

def sortNames (names : List String) : List String :=
  sortBy nameLe names

end Minifun.Text
