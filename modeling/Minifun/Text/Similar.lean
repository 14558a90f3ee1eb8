/-! # Similar names

The edit distance of two names is the least number of insertions, deletions and substitutions of
single characters that turn one into the other. A misspelt name is likely one within distance two.
-/

namespace Minifun.Text

/-- One row of the table of distances from the row above it. The row above belongs to a word, and
the new row to that word with `c` after it; the cells stand for the beginnings of the other word.
`diagonal` and `left` are the cells above-left of and left of the next one. -/
def nextCells (c : Char) (diagonal left : Nat) : List Char → List Nat → List Nat
  | d :: ds, above :: row =>
    let cell := min (min (above + 1) (left + 1)) (diagonal + if c = d then 0 else 1)
    cell :: nextCells c above cell ds row
  | _, _ => []

def nextRow (word : List Char) (row : List Nat) (c : Char) : List Nat :=
  match row with
  | [] => []
  | first :: rest => (first + 1) :: nextCells c first (first + 1) word rest

/-- The edit distance of two lists of characters, by rows of the table of all beginnings. -/
def distance (a b : List Char) : Nat :=
  (a.foldl (nextRow b) (List.range (b.length + 1))).getLastD 0

/-- The edit distance of two names. The rows are those of the shorter one. -/
def editDistance (a b : String) : Nat :=
  if a.length < b.length then distance b.toList a.toList else distance a.toList b.toList

/-- The names within distance two of a name, the closest first, and equally close ones in the order
given. -/
def closeNames (name : String) (names : List String) : List String :=
  [0, 1, 2].flatMap fun n => names.filter fun other => editDistance name other == n

/-- The first names of a list; a negative number counts from the end how many to leave out. -/
def firstNames (count : Int) (names : List String) : List String :=
  if count < 0 then names.take (names.length - count.natAbs) else names.take count.toNat

/-- At most three names that a misspelt name may stand for. -/
def similarNames (name : String) (names : List String) : List String :=
  firstNames 3 (closeNames name names)

end Minifun.Text
