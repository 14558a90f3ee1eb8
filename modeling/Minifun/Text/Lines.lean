/-! # Lines

A text is its lines joined by line feeds. Texts of files may end a line with a carriage return and
a line feed, or with a carriage return alone; both are read as a line feed.
-/

namespace Minifun.Text

/-- The pieces of a list between line feeds. There is one more piece than there are line feeds. -/
def splitLines : List Char → List (List Char)
  | [] => [[]]
  | c :: cs =>
    if c = '\n' then [] :: splitLines cs
    else
      match splitLines cs with
      | [] => [[c]]
      | l :: ls => (c :: l) :: ls

def lines (s : String) : List String :=
  (splitLines s.toList).map String.ofList

def joinLines (ls : List String) : String :=
  "\n".intercalate ls

def normalizeLineEnds : List Char → List Char
  | [] => []
  | '\r' :: '\n' :: cs => '\n' :: normalizeLineEnds cs
  | '\r' :: cs => '\n' :: normalizeLineEnds cs
  | c :: cs => c :: normalizeLineEnds cs

def blanks (n : Nat) : String :=
  String.ofList (List.replicate n ' ')

def padLeft (width : Nat) (s : String) : String :=
  blanks (width - s.length) ++ s

end Minifun.Text
