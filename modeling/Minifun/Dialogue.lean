import Minifun.Folder
import Minifun.Session

/-! # The dialogue

The interactive use of the language: a prompt, and for each input the answers of its statements. An
input may take several lines and is complete when a line ends with a semicolon or a blank line
follows. A line that begins with a colon is a command, unless an input is under way.
-/

namespace Minifun

def version : String := "0.1.0"

inductive Input where
  | line (text : String)
  | interrupt
deriving DecidableEq, Repr, Inhabited

/-- A session at a prompt, with the lines of the input that is under way. -/
structure Dialogue where
  session : Session := {}
  buffer : List String := []
  palette : Palette := .plain

/-- The reaction to something: the lines that are printed and reported, whether the dialogue ends,
and what broke it, if anything did. -/
structure Reply where
  dialogue : Dialogue
  out : List String := []
  err : List String := []
  done : Bool := false
  breakdown : Option Breakdown := none

namespace Dialogue

def help : List String :=
  ["", "MFL REPL Commands:", "",
    "  :help, :h           Show this help message",
    "  :quit, :q           Exit the REPL",
    "  :type, :t <expr>    Show the type of an expression",
    "  :ast <expr>         Show the syntax tree of an input",
    "  :env                List all definitions with their types",
    "  :clear, :c          Clear all definitions",
    "  :load <file>        Run a file in the current session",
    "", "Language:", "",
    "  42  3.14  true      int, real and bool literals",
    "  [1, 2, 3]           List (elements share one type)",
    "  fn x -> e           Function",
    "  f(x)                Application",
    "  val x := e          Top-level definition (may be recursive)",
    "  val f x := e        Same as val f := fn x -> e",
    "  let x := e in b     Local binding",
    "  if c then a else b  Conditional",
    "  hd tl len           List primitives: hd(xs)",
    "  map foldl foldr     map(f xs), foldl(f init xs)",
    "  ++  mod             List concatenation, remainder",
    "", "Examples:", "",
    "  val fact := fn n -> if n = 0 then 1 else n * fact(n - 1);",
    "  map((fn x -> x * x) [1, 2, 3]);", ""]

def greeting (d : Dialogue) : List String :=
  [d.palette.bold ("MFL REPL v" ++ version),
    "Type " ++ d.palette.keyword ":help" ++ " for help, " ++
      d.palette.keyword ":quit" ++ " to exit",
    ""]

def prompt (d : Dialogue) : String :=
  if d.buffer.isEmpty then d.palette.prompt "mfl> " else d.palette.dim "..." ++ " "

def resultLine (p : Palette) (answer : Value) (type : Ty) : String :=
  match answer with
  | .name x => "val " ++ p.varName x ++ " : " ++ p.typeName type.text
  | v => p.value v.shown ++ " : " ++ p.typeName type.text

def evalLines (p : Palette) (tracing : Bool) (answers : List Value) : List String :=
  if tracing then answers.map fun v => p.dim "eval:" ++ " " ++ v.shown else []

/-- The reaction to a failure: its report, with the text it belongs to. -/
def report (d : Dialogue) (out : List String) (failure : Failure) (source : String)
    (file : Option String) : Reply :=
  match failure.diagnose with
  | .ok diagnostic =>
    { dialogue := d, out := out,
      err := [(diagnostic.attach (some source) file).render d.palette []] }
  | .error breakdown => { dialogue := d, out := out, breakdown := some breakdown }

/-- Prints lines, and then those for answers and their types. An answer that has no written form
breaks the dialogue. -/
def showResults (d : Dialogue) (out : List String) (results : List (Value × Ty)) : Reply :=
  let written := results.takeWhile fun r => r.1.isWritten
  { dialogue := d
    out := out ++ written.map fun r => resultLine d.palette r.1 r.2
    breakdown := if written.length = results.length then none else some .unwritten }

def process (d : Dialogue) (source : String) : Reply :=
  if Text.isBlankText source then { dialogue := d }
  else
    let r := d.session.execute source
    let d := { d with session := r.session }
    let trace := evalLines d.palette d.session.tracing r.evaluated
    match r.outcome with
    | .error failure => d.report trace failure source none
    | .ok results => d.showResults trace results

def showType (d : Dialogue) (source : String) : Reply :=
  let (outcome, session) := d.session.typeOf source
  let d := { d with session := session }
  match outcome with
  | .error failure => d.report [] failure source none
  | .ok type =>
    let shown := String.ofList (Text.dropEndWhile (· == ';') source.toList)
    { dialogue := d, out := [shown ++ " : " ++ d.palette.typeName type.text] }

def showTree (d : Dialogue) (source : String) : Reply :=
  match Program.parse (Session.terminated source) none with
  | .error failure => d.report [] failure source none
  | .ok p => { dialogue := d, out := p.statements.map (·.dump 0) }

def listDefinitions (d : Dialogue) : Reply :=
  match d.session.definitions with
  | [] => { dialogue := d, out := ["No definitions"] }
  | definitions =>
    { dialogue := d
      out := "Definitions:" :: definitions.map fun b =>
        "  " ++ d.palette.varName b.1 ++ " : " ++ d.palette.typeName b.2.text }

/-- Executes a file, and shows the last answer. -/
def load (d : Dialogue) (file : String) (content : Except FileFault String) : Reply :=
  match content with
  | .error fault =>
    match fault.breakdown? with
    | some breakdown => { dialogue := d, breakdown := some breakdown }
    | none =>
      { dialogue := d, out := [d.palette.failure ("Cannot read " ++ file ++ ": " ++ fault.text)] }
  | .ok source =>
    let r := d.session.execute source
    let d := { d with session := r.session }
    let trace := evalLines d.palette d.session.tracing r.evaluated
    match r.outcome with
    | .error failure => d.report trace failure source (some file)
    | .ok results =>
      let title := d.palette.success
        ("Loaded " ++ toString results.length ++ " statements from " ++ file)
      d.showResults (trace ++ [title]) results.getLast?.toList

def splitCommand (line : String) : String × String :=
  let cs := (Text.trim line).toList
  let name := cs.takeWhile (· != ' ')
  (String.ofList name, Text.trim (String.ofList (cs.drop name.length)))

def loads? (d : Dialogue) (line : String) : Option String :=
  if d.buffer.isEmpty && line.startsWith ":" then
    let (name, arg) := splitCommand line
    if name = ":load" && arg != "" then some arg else none
  else none

def command (d : Dialogue) (read : String → Except FileFault String) (line : String) : Reply :=
  let (name, arg) := splitCommand line
  if name = ":quit" || name = ":q" then { dialogue := d, out := ["Goodbye!"], done := true }
  else if name = ":help" || name = ":h" then { dialogue := d, out := help }
  else if name = ":type" || name = ":t" then
    if arg = "" then { dialogue := d, out := ["Usage: :type <expr>"] } else d.showType arg
  else if name = ":ast" then
    if arg = "" then { dialogue := d, out := ["Usage: :ast <expr>"] } else d.showTree arg
  else if name = ":env" then d.listDefinitions
  else if name = ":clear" || name = ":c" then
    let session : Session := { tracing := d.session.tracing, depth := d.session.depth }
    { dialogue := { d with session := session }, out := ["State cleared"] }
  else if name = ":load" then
    if arg = "" then { dialogue := d, out := ["Usage: :load <filename>"] }
    else d.load arg (read arg)
  else { dialogue := d, out := ["Unknown command: " ++ name, "Type :help for help"] }

def step (d : Dialogue) (read : String → Except FileFault String) : Input → Reply
  | .interrupt => { dialogue := { d with buffer := [] }, out := ["", "Use :quit to exit"] }
  | .line text =>
    if d.buffer.isEmpty && text.startsWith ":" then d.command read text
    else if Text.isBlankText text then
      if d.buffer.isEmpty then { dialogue := d }
      else { d with buffer := [] }.process (Text.joinLines d.buffer)
    else
      let buffer := d.buffer ++ [text]
      if (Text.trimEnd text).endsWith ";" then
        { d with buffer := [] }.process (Text.joinLines buffer)
      else { dialogue := { d with buffer := buffer } }

/-- The words that begin with a text: keywords and defined names, in order. -/
def completions (d : Dialogue) (text : String) : List String :=
  let words := (d.session.names ++ keywords.map (·.1)).eraseDups
  Text.sortNames (words.filter fun word => word.startsWith text)

end Dialogue

structure Transcript where
  out : String := ""
  err : String := ""
deriving DecidableEq, Repr, Inhabited

def printed (lines : List String) : String :=
  String.join (lines.map (· ++ "\n"))

def Transcript.add (t : Transcript) (out err : List String) : Transcript :=
  ⟨t.out ++ printed out, t.err ++ printed err⟩

/-- The end of a dialogue: what was printed, the dialogue as it is then, and what broke it, if
anything did. -/
structure Ended where
  transcript : Transcript
  dialogue : Dialogue
  breakdown : Option Breakdown

namespace Dialogue

/-- Holds a dialogue until the user leaves or there is no further input. -/
def hold (read : String → Except FileFault String) (d : Dialogue) (t : Transcript) :
    List Input → Ended
  | [] => ⟨{ t with out := t.out ++ d.prompt }.add ["", "Goodbye!"] [], d, none⟩
  | input :: rest =>
    let reply := d.step read input
    let t := { t with out := t.out ++ d.prompt }.add reply.out reply.err
    if reply.done || reply.breakdown.isSome then ⟨t, reply.dialogue, reply.breakdown⟩
    else hold read reply.dialogue t rest

def run (read : String → Except FileFault String) (d : Dialogue) (inputs : List Input) : Ended :=
  hold read d (({} : Transcript).add d.greeting []) inputs

end Dialogue

end Minifun
