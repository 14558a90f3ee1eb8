import Minifun.Dialogue

/-! # Scripts

What the command does to the world, one action after the other, each with what comes next. A script
is data: it can be performed, and it can be read off as a transcript.
-/

namespace Minifun

inductive Script where
  | exit (status : Nat)
  /-- Ends with what no report explains. -/
  | broken (breakdown : Breakdown)
  | print (line : String) (next : Unit → Script)
  | report (line : String) (next : Unit → Script)
  | write (path text : String) (next : Option FileFault → Script)
  /-- Begins to measure time anew. -/
  | begin (next : Unit → Script)
  /-- Prints the time since the last beginning after a label. -/
  | lap (label : String) (next : Unit → Script)
  /-- Prints the time since the very beginning after a label. -/
  | total (label : String) (next : Unit → Script)

inductive Ending where
  | exit (status : Nat)
  | broken (breakdown : Breakdown)
deriving DecidableEq, Repr, Inhabited

structure Performance where
  transcript : Transcript := {}
  written : List (Place × String) := []
  ending : Ending := .exit 0
deriving Repr, Inhabited

/-- A time of so many thousandths of a second. -/
def seconds (milliseconds : Nat) : String :=
  let places := toString (milliseconds % 1000)
  toString (milliseconds / 1000) ++ "." ++
    String.ofList (List.replicate (3 - places.length) '0') ++ places ++ "s"

namespace Script

def printAll (lines : List String) (next : Unit → Script) : Script :=
  lines.foldr (fun line rest => print line fun _ => rest) (next ())

def printIf (c : Bool) (line : String) (next : Unit → Script) : Script :=
  if c then print line next else next ()

/-- What a script does in a folder, if it takes no time. -/
def perform (folder : Folder) (done : Performance) : Script → Performance
  | exit status => { done with ending := .exit status }
  | broken breakdown => { done with ending := .broken breakdown }
  | print line next =>
    (next ()).perform folder { done with transcript := done.transcript.add [line] [] }
  | report line next =>
    (next ()).perform folder { done with transcript := done.transcript.add [] [line] }
  | write path text next =>
    match folder.writeFault? path with
    | some fault => (next (some fault)).perform folder done
    | none =>
      (next none).perform folder
        { done with written := done.written ++ [(Place.ofPath path, text)] }
  | begin next => (next ()).perform folder done
  | lap label next | total label next =>
    (next ()).perform folder
      { done with transcript := done.transcript.add [label ++ seconds 0] [] }

end Script

end Minifun
