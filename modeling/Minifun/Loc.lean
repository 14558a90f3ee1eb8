/-! # Places in a program text

Lines and columns count from one. A column of zero means that only the line is known.
-/

namespace Minifun

/-- A line and a column of a text, with the name of the file the text came from. -/
structure Loc where
  line : Int
  column : Int := 0
  file : Option String := none
deriving DecidableEq, Repr, Inhabited

namespace Loc

def place (l : Loc) : String :=
  if l.column = 0 then "line " ++ toString l.line
  else toString l.line ++ ":" ++ toString l.column

/-- The written form: the file name, unless it is empty, then the place. -/
def text (l : Loc) : String :=
  match l.file with
  | none => l.place
  | some name => if name = "" then l.place else name ++ ":" ++ l.place

/-- The written form of a place that may be unknown. -/
def textOf : Option Loc → String
  | none => "<unknown location>"
  | some l => l.text

end Loc

end Minifun
