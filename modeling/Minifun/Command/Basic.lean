import Minifun.Command.Options
import Minifun.Command.Script

/-! # The command

With the name of a file the command reads, checks and evaluates the file; without one it holds a
dialogue. A command line that is not understood, or that names a file that is not there, ends with
status two.
-/

namespace Minifun

namespace Command

def usageStatus : Nat := 2

def usage : List String :=
  ["Usage: mfl [OPTIONS] [FILENAME]", "",
    "  mfl - a small functional language with type inference.", "",
    "  If FILENAME is provided, type check and run the file. Otherwise, start an",
    "  interactive REPL.", "",
    "Options:",
    "  --ast                      Print the abstract syntax tree",
    "  --type-check-only          Only type check, do not evaluate",
    "  --no-type-check            Evaluate without type checking first",
    "  -v, --verbose              Show the type derivation and evaluation trace",
    "  -o, --output FILE          Output file for results",
    "  --timing                   Show timing information",
    "  --no-color                 Disable colored output",
    "  --recursion-limit INTEGER RANGE",
    "                             Interpreter recursion limit for evaluation",
    "                             [default: 10000; x>=100]",
    "  --version                  Show version information",
    "  --help                     Show this message and exit."]

/-- The limit on recursion never falls below the usual one. -/
def depth (o : Options) : Nat :=
  depthFor (max standardLimit (o.limitOf?.getD standardLimit))

/-- The greatest limit on recursion that a machine word holds. -/
def greatestLimit : Nat := 2147483647

def palette (o : Options) (p : Palette) : Palette :=
  if o.noColor then .plain else p

def fail (p : Palette) (steps : List Step) (failure : Failure) (source file : String) : Script :=
  match failure.diagnose with
  | .ok d => .report ((d.attach (some source) (some file)).render p steps) fun _ => .exit 1
  | .error b => .broken b

/-- Prints a result, or writes it to the file for results. -/
def emit (p : Palette) (o : Options) (content what : String) (next : Unit → Script) : Script :=
  match Diagnostic.present o.output with
  | none => .print content next
  | some path =>
    .write path (content ++ "\n") fun
      | none => .print (what ++ " written to " ++ path) next
      | some fault =>
        match fault.breakdown? with
        | some b => .broken b
        | none =>
          .report (p.failure ("Error: [Errno " ++ toString fault.code ++ "] " ++ fault.text ++
            ": " ++ Text.quote path)) fun _ => .exit 1

def lapIf (o : Options) (label : String) (next : Unit → Script) : Script :=
  if o.timing then .lap label next else next ()

def evaluate (p : Palette) (o : Options) (source file : String) (program : Program)
    (steps : List Step) (type : Ty) : Script :=
  .printIf o.verbose "Evaluating..." fun _ => .begin fun _ =>
    let result := Program.evalEach o.verbose (depth o) program.statements []
    .printAll (Dialogue.evalLines p o.verbose result.answers) fun _ =>
      match result.stop with
      | some stop => fail p steps stop.failure source file
      | none =>
        lapIf o "Evaluation time: " fun _ =>
          if result.answer.isWritten then
            let lines := ("Result: " ++ result.answer.shown) ::
              (if type.isNothing then [] else ["Type: " ++ type.text])
            emit p o (Text.joinLines lines) "Result" fun _ =>
              if o.timing then .total "\nTotal time: " fun _ => .exit 0 else .exit 0
          else .broken .unwritten

/-- Checks a program, and evaluates it unless only the check is asked for. -/
def check (p : Palette) (o : Options) (source file : String) (program : Program) : Script :=
  .printIf o.verbose "Type checking..." fun _ => .begin fun _ =>
    let trace : Trace := { enabled := o.verbose }
    let checked := ({} : Checker).check { trace := trace } program.statements
    let steps := checked.shared.trace.steps
    match checked.outcome with
    | .error e => fail p steps (.typing e) source file
    | .ok type =>
      lapIf o "Type check time: " fun _ =>
        if o.checkOnly then
          .print (p.success ("Type checked successfully (" ++
            toString program.statements.length ++ " statements)")) fun _ =>
            if type.isNothing then .exit 0
            else emit p o ("Type: " ++ type.text) "Type" fun _ => .exit 0
        else evaluate p o source file program steps type

def runFile (p : Palette) (o : Options) (source file : String) : Script :=
  .printIf o.verbose ("Reading " ++ file ++ "...") fun _ =>
    .printIf o.verbose "Parsing..." fun _ => .begin fun _ =>
      match Program.parse source (some file) with
      | .error failure => fail p [] failure source file
      | .ok program =>
        lapIf o "Parse time: " fun _ =>
          if o.tree then
            emit p o ("Abstract Syntax Tree:\n" ++ program.dump 0) "AST" fun _ => .exit 0
          else if o.noCheck then evaluate p o source file program [] .nothing
          else check p o source file program

def dialogue (p : Palette) (o : Options) : Dialogue :=
  { session := { tracing := o.verbose, depth := depth o }, palette := p }

inductive Task where
  | refuse
  | script (s : Script)
  | talk (d : Dialogue)

def checkOption (find : String → Entry) (o : Options) : ValueOption → Except Task Unit
  | .output =>
    match o.output.map find with
    | some .folder => .error .refuse
    | some (.none .brokenPath) => .error (.script (.broken .brokenPath))
    | _ => .ok ()
  | .limit => if o.limitOf?.isNone then .error .refuse else .ok ()

/-- The text of the file on the command line, with its name, if there is a file. -/
def openFile (find : String → Entry) (o : Options) : Except Task (Option (String × String)) :=
  match o.files with
  | [] => .ok none
  | file :: rest =>
    match (find file).read with
    | .error .brokenPath => .error (.script (.broken .brokenPath))
    | .error _ => .error .refuse
    | .ok source => if rest.isEmpty then .ok (some (source, file)) else .error .refuse

/-- What options ask for when all of them are in order. -/
def task (p : Palette) (o : Options) (input : Option (String × String)) : Task :=
  if o.version then .script (.print ("mfl version " ++ version) fun _ => .exit 0)
  else if greatestLimit < o.limitOf?.getD standardLimit then .script (.broken .hugeLimit)
  else
    match input with
    | none => .talk (dialogue p o)
    | some (source, file) => .script (runFile p o source file)

/-- What the command has to do, given what the paths on the command line lead to. -/
def plan (p : Palette) (find : String → Entry) (args : List String) : Task :=
  match Options.ofArguments? args with
  | none => .refuse
  | some o =>
    if o.help then .script (.printAll usage fun _ => .exit 0)
    else
      let input := do
        o.given.forM (checkOption find o)
        openFile find o
      match input with
      | .error t => t
      | .ok input => task (palette o p) o input

def run (p : Palette) (folder : Folder) (inputs : List Input) (args : List String) :
    Performance :=
  match plan p folder.find args with
  | .refuse => { ending := .exit usageStatus }
  | .script s => s.perform folder {}
  | .talk d =>
    let ended := d.run (fun path => (folder.find path).read) inputs
    { transcript := ended.transcript
      ending := match ended.breakdown with
        | none => .exit 0
        | some b => .broken b }

end Command

end Minifun
