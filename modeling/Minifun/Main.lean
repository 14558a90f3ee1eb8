import Minifun.Command.Basic

/-! # The program

Performs what the command plans: reads the files it names, prints, writes, measures time and holds
the dialogue.
-/

namespace Minifun

def faultOf : IO.Error → FileFault
  | .noFileOrDirectory _ _ _ => .missing
  | .inappropriateType _ _ _ => .isAFolder
  | .invalidArgument _ 36 _ => .longName
  | e => .other 5 (toString e)

def findEntry (path : String) : IO Entry := do
  if path.toList.contains '\x00' then return .none .brokenPath
  try
    return .file (← IO.FS.readFile path)
  catch e =>
    match faultOf e with
    | .isAFolder => return .folder
    | fault => return .none fault

def findEntries (args : List String) : IO (List (String × Entry)) := do
  match Options.ofArguments? args with
  | none => return []
  | some o =>
    (o.files ++ o.output.toList).mapM fun path => do return (path, ← findEntry path)

def writeEntry (path text : String) : IO (Option FileFault) := do
  try
    IO.FS.writeFile path text
    return none
  catch e => return some (faultOf e)

/-- Performs a script that began, and began to measure time anew, at the given times. -/
def Script.play (start lapStart : Nat) : Script → IO UInt32
  | exit status => return status.toUInt32
  | broken breakdown => do
    IO.eprintln breakdown.message
    return 1
  | print line next => do
    IO.println line
    (next ()).play start lapStart
  | report line next => do
    IO.eprintln line
    (next ()).play start lapStart
  | write path text next => do
    let fault ← writeEntry path text
    (next fault).play start lapStart
  | begin next => do
    let now ← IO.monoMsNow
    (next ()).play start now
  | lap label next => do
    let now ← IO.monoMsNow
    IO.println (label ++ seconds (now - lapStart))
    (next ()).play start lapStart
  | total label next => do
    let now ← IO.monoMsNow
    IO.println (label ++ seconds (now - start))
    (next ()).play start lapStart

partial def Dialogue.talk (d : Dialogue) : IO UInt32 := do
  IO.print d.prompt
  (← IO.getStdout).flush
  let line ← (← IO.getStdin).getLine
  if line.isEmpty then
    IO.print "\nGoodbye!\n"
    return 0
  let text := String.ofList (Text.dropEndWhile (· == '\n') line.toList)
  let entry ← match d.loads? text with
    | some path => findEntry path
    | none => pure (.none .missing)
  let reply := d.step (fun _ => entry.read) (.line text)
  IO.print (printed reply.out)
  IO.eprint (printed reply.err)
  match reply.breakdown with
  | some breakdown =>
    IO.eprintln breakdown.message
    return 1
  | none => if reply.done then return 0 else reply.dialogue.talk

end Minifun

open Minifun in
def main (args : List String) : IO UInt32 := do
  let isTerminal ← (← IO.getStdout).isTty
  let palette := Palette.forTerminal isTerminal (← IO.getEnv "TERM") (← IO.getEnv "NO_COLOR")
  let entries ← findEntries args
  match Command.plan palette (fun path => (entries.lookup path).getD (.none .missing)) args with
  | .refuse =>
    IO.eprint (printed Command.usage)
    return Command.usageStatus.toUInt32
  | .script s =>
    let now ← IO.monoMsNow
    s.play now now
  | .talk d =>
    IO.print (printed d.greeting)
    d.talk
