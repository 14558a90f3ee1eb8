import Minifun.Breakdown
import Minifun.Text.Lines

/-! # Files

What a program sees of a file system: a folder with texts and further folders, found by paths. A
path may also leave the folder. Above it there are only folders with nothing known in them, and at
the root the usual ones.
-/

namespace Minifun

inductive FileFault where
  | missing
  | notAFolder
  | isAFolder
  | longName
  /-- The path has a character that ends every path. -/
  | brokenPath
  | other (code : Nat) (text : String)
deriving DecidableEq, Repr, Inhabited

namespace FileFault

def text : FileFault → String
  | missing => "No such file or directory"
  | notAFolder => "Not a directory"
  | isAFolder => "Is a directory"
  | longName => "File name too long"
  | brokenPath => Breakdown.brokenPath.message
  | other _ text => text

def code : FileFault → Nat
  | missing => 2
  | notAFolder => 20
  | isAFolder => 21
  | longName => 36
  | brokenPath => 22
  | other code _ => code

/-- The breakdown that a fault is, if it is not one of the operating system. -/
def breakdown? : FileFault → Option Breakdown
  | brokenPath => some .brokenPath
  | _ => none

end FileFault

inductive Entry where
  | file (text : String)
  | folder
  | none (fault : FileFault)
deriving DecidableEq, Repr, Inhabited

/-- The text of what a path leads to, with its line ends as line feeds. -/
def Entry.read : Entry → Except FileFault String
  | .file text => .ok (String.ofList (Text.normalizeLineEnds text.toList))
  | .folder => .error .isAFolder
  | .none fault => .error fault

/-- A place in a file system: the names that lead to it from the folder at hand, from a folder so
many steps above it, or from the root, for which `above` is `none`. -/
structure Place where
  above : Option Nat := some 0
  names : List String := []
deriving DecidableEq, Repr, Inhabited

namespace Place

def start (path : String) : Place :=
  if path.startsWith "/" then ⟨none, []⟩ else {}

def into (p : Place) (name : String) : Place :=
  { p with names := p.names ++ [name] }

/-- The folder around a place. The root is around itself. -/
def up (p : Place) : Place :=
  if p.names.isEmpty then { p with above := p.above.map (· + 1) }
  else { p with names := p.names.dropLast }

/-- The place one name of a path further, if all that the path goes through are folders. -/
def step (p : Place) (name : String) : Place :=
  if name = "" || name = "." then p
  else if name = ".." then p.up
  else p.into name

def ofPath (path : String) : Place :=
  (path.splitOn "/").foldl step (start path)

end Place

def longestName : Nat := 255

def longestPath : Nat := 4095

def rootFolders : List String :=
  ["bin", "boot", "dev", "etc", "home", "lib", "media", "mnt", "opt", "proc", "root", "run", "sbin",
    "srv", "sys", "tmp", "usr", "var"]

/-- A folder given by the paths of the files and of the folders in it. -/
structure Folder where
  files : List (String × String) := []
  folders : List String := []
deriving Repr, Inhabited

namespace Folder

/-- What the names of a path lead to straight from the folder. A path to something in a folder makes
the folder known. -/
def inside (d : Folder) (names : List String) : Entry :=
  let path := "/".intercalate names
  let within := path ++ "/"
  match d.files.lookup path with
  | some text => .file text
  | none =>
    if d.folders.contains path || d.folders.any (·.startsWith within) ||
        d.files.any (·.1.startsWith within) then .folder
    else .none .missing

def fromRoot : List String → Entry
  | [name] => if rootFolders.contains name then .folder else .none .missing
  | ["dev", "null"] => .file ""
  | _ => .none .missing

def entryAt (d : Folder) (p : Place) : Entry :=
  if p.names.isEmpty then .folder
  else
    match p.above with
    | none => fromRoot p.names
    | some 0 => d.inside p.names
    | some _ => .none .missing

/-- What the names of a path lead to from a place on. Each name but the last has to be one of a
folder. -/
def walk (d : Folder) (p : Place) : List String → Entry
  | [] => d.entryAt p
  | name :: rest =>
    match d.entryAt p with
    | .folder =>
      if longestName < name.utf8ByteSize then .none .longName else d.walk (p.step name) rest
    | .file _ => .none .notAFolder
    | .none fault => .none fault

/-- Why a path cannot be followed at all, if it cannot. -/
def pathFault? (path : String) : Option FileFault :=
  if path.toList.contains '\x00' then some .brokenPath
  else if path = "" then some .missing
  else if longestPath < path.utf8ByteSize then some .longName
  else none

def find (d : Folder) (path : String) : Entry :=
  match pathFault? path with
  | some fault => .none fault
  | none => d.walk (Place.start path) (path.splitOn "/")

/-- Why a file of a path cannot be written, if it cannot. The path has to lead to a file, or to a
new name in a folder; with a slash at its end it leads to neither. -/
def writeFault? (d : Folder) (path : String) : Option FileFault :=
  match pathFault? path with
  | some fault => some fault
  | none =>
    let names := path.splitOn "/"
    let last := (names.reverse.dropWhile (· = "")).headD ""
    let parents := ((names.reverse.dropWhile (· = "")).drop 1).reverse
    match d.walk (Place.start path) parents with
    | .none fault => some fault
    | .file _ => some .notAFolder
    | .folder =>
      if last = "" || last = "." || last = ".." || path.endsWith "/" then some .isAFolder
      else
        match d.walk (Place.start path) names with
        | .file _ | .none .missing => none
        | .folder => some .isAFolder
        | .none fault => some fault

end Folder

end Minifun
