import Minifun.Run
import Minifun.Text.Numeral

/-! # Options of the command

Flags may stand anywhere on the command line. Short ones may be written together, and a value may
follow its option directly or as the next argument. Of several values for an option the last one
counts. After two hyphens everything is an argument. What the values stand for is checked later, in
the order in which their options first appear.
-/

namespace Minifun

inductive ValueOption where
  | output
  | limit
deriving DecidableEq, Repr, Inhabited

/-- What the command is asked to do: the files it is given, its flags, the values of its options,
and these options in the order in which they first appear. -/
structure Options where
  files : List String := []
  tree : Bool := false
  checkOnly : Bool := false
  noCheck : Bool := false
  verbose : Bool := false
  output : Option String := none
  timing : Bool := false
  noColor : Bool := false
  limit : Option String := none
  version : Bool := false
  help : Bool := false
  given : List ValueOption := []
deriving DecidableEq, Repr, Inhabited

namespace Options

def setFlag? (o : Options) (name : String) : Option Options :=
  match name with
  | "--ast" => some { o with tree := true }
  | "--type-check-only" => some { o with checkOnly := true }
  | "--no-type-check" => some { o with noCheck := true }
  | "--verbose" | "-v" => some { o with verbose := true }
  | "--timing" => some { o with timing := true }
  | "--no-color" => some { o with noColor := true }
  | "--version" => some { o with version := true }
  | "--help" => some { o with help := true }
  | _ => none

def valueOption? (name : String) : Option ValueOption :=
  match name with
  | "--output" | "-o" => some .output
  | "--recursion-limit" => some .limit
  | _ => none

def setValue (o : Options) (option : ValueOption) (value : String) : Options :=
  let given := if o.given.contains option then o.given else o.given ++ [option]
  match option with
  | .output => { o with output := some value, given := given }
  | .limit => { o with limit := some value, given := given }

def leastLimit : Int := 100

def readLimit? (s : String) : Option Nat :=
  match Text.readInt s with
  | .ok n => if leastLimit ≤ n then some n.toNat else none
  | .error _ => none

/-- The limit on recursion, which is the usual one if none is asked for. -/
def limitOf? (o : Options) : Option Nat :=
  match o.limit with
  | none => some standardLimit
  | some s => readLimit? s

/-- What short options written together mean: the options, and one that takes the next argument as
its value, if the last one does. -/
def setShort? (o : Options) : List Char → Option (Options × Option ValueOption)
  | [] => some (o, none)
  | c :: cs =>
    let name := String.ofList ['-', c]
    match valueOption? name with
    | some option =>
      if cs.isEmpty then some (o, some option)
      else some (o.setValue option (String.ofList cs), none)
    | none =>
      match o.setFlag? name with
      | some o => setShort? o cs
      | none => none

/-- What a long option means: the options, and the option itself if it takes the next argument as
its value. -/
def setLong? (o : Options) (arg : String) : Option (Options × Option ValueOption) :=
  let cs := arg.toList
  let name := String.ofList (cs.takeWhile (· != '='))
  match valueOption? name, cs.dropWhile (· != '=') with
  | some option, _ :: value => some (o.setValue option (String.ofList value), none)
  | some option, [] => some (o, some option)
  | none, _ :: _ => none
  | none, [] => (o.setFlag? name).map fun o => (o, none)

/-- Reads the arguments of a command. `pending` is the option that waits for its value. -/
def read? (o : Options) (pending : Option ValueOption) (plain : Bool) :
    List String → Option Options
  | [] => if pending.isSome then none else some o
  | arg :: rest =>
    match pending with
    | some option => read? (o.setValue option arg) none plain rest
    | none =>
      if plain || !arg.startsWith "-" || arg = "-" then
        read? { o with files := o.files ++ [arg] } none plain rest
      else if arg = "--" then read? o none true rest
      else
        match (if arg.startsWith "--" then o.setLong? arg else o.setShort? (arg.toList.drop 1)) with
        | some (o, pending) => read? o pending plain rest
        | none => none

def ofArguments? (args : List String) : Option Options :=
  read? {} none false args

end Options

end Minifun
