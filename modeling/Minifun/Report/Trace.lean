import Minifun.Loc
import Minifun.Report.Palette
import Minifun.Text.Lines

/-! # Derivation traces

While a trace is on, type inference notes in it the functions and definitions whose types it has
found. A report of a type error ends with the trace.
-/

namespace Minifun

structure Step where
  description : String
  loc : Option Loc := none
  result : Option String := none
deriving DecidableEq, Repr, Inhabited

/-- The findings so far, and whether further ones are noted. -/
structure Trace where
  enabled : Bool := false
  steps : List Step := []
deriving DecidableEq, Repr, Inhabited

namespace Trace

def add (t : Trace) (step : Step) : Trace :=
  if t.enabled then ⟨true, t.steps ++ [step]⟩ else t

def clear (t : Trace) : Trace :=
  ⟨t.enabled, []⟩

def stepLines (p : Palette) (number : Nat) (step : Step) : List String :=
  (p.dim ("Step " ++ toString number ++ ":") ++ " " ++ step.description) ::
    (match step.loc with
      | none => []
      | some loc => ["  " ++ p.dim "at" ++ " " ++ loc.text]) ++
    (match step.result with
      | none => []
      | some result =>
        if result = "" then [] else ["  " ++ p.dim "result:" ++ " " ++ p.typeName result])

def stepsLines (p : Palette) : Nat → List Step → List String
  | _, [] => []
  | number, step :: steps => stepLines p number step ++ stepsLines p (number + 1) steps

def render (p : Palette) (steps : List Step) : Option String :=
  if steps.isEmpty then none
  else some (Text.joinLines (p.bold "\nType Derivation Trace:" :: stepsLines p 1 steps))

end Trace

end Minifun
