import Minifun.Loc
import Minifun.Report.Palette
import Minifun.Text.Lines

/-! # Excerpts of a text

An excerpt shows the line of a place with some lines around it. The line is marked by an arrow, and
carets below it mark the column.
-/

namespace Minifun.Excerpt

open Text (blanks padLeft)

/-- The number of a line, in four places at least, and the bar after it. -/
def gutter (number : Nat) : String :=
  padLeft 4 (toString number) ++ " │ "

def plainLine (number : Nat) (line : String) : String :=
  "  " ++ gutter number ++ line

def markedLine (p : Palette) (number : Nat) (line : String) : String :=
  p.paint .red "→" ++ " " ++ gutter number ++ line

/-- The number of carets: up to the end of the line, but at least one and at most ten. -/
def caretCount (length : Nat) (column : Int) : Nat :=
  (max 1 (min ((length : Int) - column + 1) 10)).toNat

def caretLine (p : Palette) (line : String) (column : Int) : String :=
  "       │ " ++ blanks (column - 1).toNat ++
    p.paint .red (String.ofList (List.replicate (caretCount line.length column) '^'))

@[simp] def body (p : Palette) (loc : Loc) : Nat → List String → List String
  | _, [] => []
  | number, line :: rest =>
    if (number : Int) = loc.line then
      if 0 < loc.column then
        markedLine p number line :: caretLine p line loc.column :: body p loc (number + 1) rest
      else markedLine p number line :: body p loc (number + 1) rest
    else plainLine number line :: body p loc (number + 1) rest

/-- The lines of a text with at most `context` lines between them and the line of a place, and the
number of the first of them. -/
def window (lines : List String) (loc : Loc) (context : Int) : Nat × List String :=
  let start := (loc.line - context - 1).toNat
  let stop := (min (lines.length : Int) (loc.line + context)).toNat
  (start + 1, (lines.take stop).drop start)

/-- A message, which may be empty, and where it comes from. If the text does not have the line, the
message stands alone. -/
def render (p : Palette) (source : String) (loc : Loc) (message : String) (context : Int) :
    String :=
  let lines := Text.lines source
  let title := if message = "" then [] else [p.failure ("Error: " ++ message)]
  if 0 < loc.line ∧ loc.line ≤ lines.length then
    let (first, shown) := window lines loc context
    Text.joinLines (title ++ (p.dim "at" ++ " " ++ loc.text) :: "" :: body p loc first shown)
  else Text.joinLines title

end Minifun.Excerpt
