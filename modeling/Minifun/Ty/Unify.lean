import Minifun.Ty.Subst

/-! # Unification

Two types are made equal by binding variables. Parameters of functions come before results, and the
left of two variables is bound, unless it is constrained and the right one is free. When unification
fails, the bindings made so far stay.

Each binding to a type that is not missing takes one variable out of the problem. The types are
therefore walked in rounds: within a round no such binding is made between a parameter and a result,
so both are parts of the types at hand, and after one a new round begins with the results as they
now are. The number of variables bounds the number of rounds.
-/

namespace Minifun

inductive ClashKind where
  | mismatch
  | infinite
deriving DecidableEq, Repr, Inhabited

structure Clash where
  kind : ClashKind
  expected : Ty
  actual : Ty
deriving DecidableEq, Repr, Inhabited

namespace Subst

/-- The result of unification: the bindings, and on failure also the clash. -/
abbrev Unified := Except (Subst × Clash) Subst

def clash (s : Subst) (kind : ClashKind) (a b : Ty) : Unified :=
  let (expected, actual) := s.externalizePair a b
  .error (s, ⟨kind, expected, actual⟩)

/-- Whether binding a variable with a constraint to a type means binding that type instead: when it
is a free variable, so that the constraint survives. -/
def yields (c : Option Constraint) : Ty → Option Int
  | .var j none => if c.isSome then some j else none
  | _ => none

def admits (c : Option Constraint) (t : Ty) : Bool :=
  match c with
  | none => true
  | some c => c.accepts t

def bindVar (s : Subst) (i : Int) (c : Option Constraint) (t : Ty) : Unified :=
  match yields c t with
  | some j => .ok (s.bind j (.var i c))
  | none =>
    if !admits c t then s.clash .mismatch (.var i c) t
    else if t.occurs i then s.clash .infinite (.var i c) t
    else .ok (s.bind i t)

/-- One round on types without bound variables. `again` begins the next round. -/
def unifyRound (again : Subst → Ty → Ty → Unified) (s : Subst) (a b : Ty) : Unified :=
  if a.same b then .ok s
  else
    match a, b with
    | .var i c, t => s.bindVar i c t
    | t, .var i c => s.bindVar i c t
    | .list a, .list b => unifyRound again s a b
    | .fn a r, .fn b q =>
      match unifyRound again s a b with
      | .error e => .error e
      | .ok s' =>
        if s'.strength = s.strength then unifyRound again s' r q
        else again s' (s'.apply r) (s'.apply q)
    | a, b => s.clash .mismatch a b

def unifyRounds : Nat → Subst → Ty → Ty → Unified
  | 0 => unifyRound fun s _ _ => .ok s
  | n + 1 => unifyRound (unifyRounds n)

def unify (s : Subst) (a b : Ty) : Unified :=
  let a := s.apply a
  let b := s.apply b
  unifyRounds (a.vars.length + b.vars.length) s a b

end Subst

end Minifun
