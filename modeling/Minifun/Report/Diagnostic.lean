import Minifun.Report.Excerpt
import Minifun.Report.Trace

/-! # Diagnostics

A diagnostic is an error of the language with all that a report shows: the stage that found it, its
message, kind and place, and the text it belongs to. The kind decides on the hints.
-/

namespace Minifun

/-- The kinds of errors, as far as hints tell them apart or callers ask for them. -/
inductive ErrorKind where
  | typeMismatch | infiniteType | unknownVariable | notAFunction | notAList | emptyList | mixedMode
  | nestedList | notCurried | duplicateDefinition | notAValue | divisionByZero | recursionDepth
  | unexpectedToken | unexpectedCharacter
deriving DecidableEq, Repr, Inhabited

inductive Stage where
  | any | typing | evaluation | parsing | lexing
deriving DecidableEq, Repr, Inhabited

def Stage.label : Stage → String
  | .any => "Error"
  | .typing => "Type error"
  | .evaluation => "Evaluation error"
  | .parsing => "Syntax error"
  | .lexing => "Lexical error"

structure Diagnostic where
  stage : Stage
  message : String
  kind : Option ErrorKind := none
  loc : Option Loc := none
  expected : Option String := none
  actual : Option String := none
  similar : List String := []
  source : Option String := none
  file : Option String := none
deriving DecidableEq, Repr, Inhabited

namespace Diagnostic

/-- The diagnostic with the text it belongs to. What is known already stays. -/
def attach (d : Diagnostic) (source file : Option String) : Diagnostic :=
  { d with source := d.source.orElse fun _ => source, file := d.file.orElse fun _ => file }

def present : Option String → Option String
  | some s => if s = "" then none else some s
  | none => none

def hints (d : Diagnostic) : List String :=
  match d.kind with
  | some .unknownVariable =>
    let names := (d.similar.take 3).map fun name => "'" ++ name ++ "'"
    (if d.similar.isEmpty then [] else ["Did you mean: " ++ ", ".intercalate names ++ "?"]) ++
      ["Names must be introduced by val, let or fn before use"]
  | some .mixedMode => ["int and real never mix: write 2.0 instead of 2 next to a real"]
  | some .typeMismatch =>
    match present d.expected, present d.actual with
    | some expected, some actual => ["Expected " ++ expected ++ " but found " ++ actual]
    | _, _ => []
  | some .infiniteType => ["A value cannot contain or be applied to itself"]
  | some .notCurried => ["fold expects a curried function: fn acc -> fn x -> ..."]
  | some .nestedList => ["Lists of lists are not supported at runtime"]
  | some .duplicateDefinition => ["Use let ... in ... for a local binding with the same name"]
  | some .recursionDepth => ["Check that every recursive function has a reachable base case"]
  | some .unexpectedToken => ["Every top-level statement must end with ';'"]
  | _ => []

def suggestion (p : Palette) (d : Diagnostic) : Option String :=
  match d.hints with
  | [] => none
  | hints => some (Text.joinLines (hints.map fun h => p.hint "Hint:" ++ " " ++ h))

def opening (p : Palette) (d : Diagnostic) : List String :=
  let message := d.stage.label ++ ": " ++ d.message
  match present d.source, d.loc with
  | some source, some loc => [Excerpt.render p source loc message 2]
  | none, some loc => [p.failure message, p.dim "at" ++ " " ++ loc.text]
  | _, none => [p.failure message]

/-- The report of an error. The report of a type error ends with the findings of inference. -/
def render (p : Palette) (steps : List Step) (d : Diagnostic) : String :=
  let hint :=
    match d.suggestion p with
    | none => []
    | some s => ["", s]
  let findings := if d.stage = .typing then (Trace.render p steps).toList else []
  Text.joinLines (d.opening p ++ hint ++ findings)

def text (d : Diagnostic) : String :=
  match d.loc with
  | none => d.message
  | some loc => d.message ++ " (" ++ loc.text ++ ")"

end Diagnostic

end Minifun
