import Minifun.Frames
import Minifun.Ty.Basic

/-! # Scopes of types

Scopes of shared frames that give types to names. All scopes made from one outermost scope draw
fresh variables from one supply.
-/

namespace Minifun

/-- Frames with types, the supply that each of them draws from, and the numbers that the supplies
give next. -/
structure TypeScopes where
  frames : Frames Ty := {}
  owners : List Nat := []
  supplies : List Nat := []

namespace TypeScopes

def owner (s : TypeScopes) (id : Nat) : Nat :=
  s.owners.getD id 0

def adopt (s : TypeScopes) (made : Frames Ty × Nat) (owner : Nat) : TypeScopes × Nat :=
  ({ s with frames := made.1, owners := s.owners ++ [owner] }, made.2)

/-- A new frame, within another one or outermost. An outermost frame has a supply of its own. -/
def add (s : TypeScopes) (bindings : Frame Ty) (parent : Option Nat) : TypeScopes × Nat :=
  match parent with
  | some id => s.adopt (s.frames.add bindings parent) (s.owner id)
  | none =>
    { s with supplies := s.supplies ++ [0] }.adopt (s.frames.add bindings none) s.supplies.length

def extend (s : TypeScopes) (id : Nat) (name : String) (t : Ty) : TypeScopes × Nat :=
  s.adopt (s.frames.extend id name t) (s.owner id)

def copy (s : TypeScopes) (id : Nat) : TypeScopes × Nat :=
  s.adopt (s.frames.copy id) (s.owner id)

def define (s : TypeScopes) (id : Nat) (name : String) (t : Ty) : TypeScopes :=
  { s with frames := s.frames.define id name t }

def fresh (s : TypeScopes) (id : Nat) (constraint : Option Constraint) : TypeScopes × Ty :=
  let owner := s.owner id
  ({ s with supplies := s.supplies.modify owner (· + 1) },
    .var (s.supplies.getD owner 0) constraint)

end TypeScopes

end Minifun
