import Minifun.Eval.Run
import Minifun.Failure
import Minifun.Typing.Checker

/-! # Running a text

A text is read, checked and evaluated. Its type and its answer are those of the last statement.
-/

namespace Minifun

def Program.parse (source : String) (file : Option String) : Except Failure Program :=
  match Token.lex source file with
  | .error e => .error (.lexical e)
  | .ok tokens =>
    match Program.ofTokens tokens file with
    | .error e => .error e.failure
    | .ok p => .ok p

/-- The type of a program, checked on its own. -/
def Program.check (p : Program) : Except Failure Ty :=
  match (({} : Checker).check {} p.statements).outcome with
  | .error e => .error (.typing e)
  | .ok type => .ok type

def Program.eval (depth : Nat) (p : Program) : Except Failure Value :=
  let result := Program.evalAll depth p.statements []
  match result.stop with
  | some stop => .error stop.failure
  | none => .ok result.answer

structure Result where
  type : Ty
  answer : Value

def Result.text (r : Result) : String :=
  r.answer.shown ++ " : " ++ r.type.text

def run (depth : Nat) (source : String) (file : Option String) : Except Failure Result := do
  let p ← Program.parse source file
  let type ← p.check
  let answer ← p.eval depth
  return ⟨type, answer⟩

/-- The number of calls that may be open at once under any limit. -/
def deepest : Nat := 10000

/-- The number of calls that may be open at once under a limit on recursion, of which a call with
its operands takes about six. -/
def depthFor (limit : Nat) : Nat :=
  min (limit / 6) deepest

def standardLimit : Nat := 10000

def standardDepth : Nat := depthFor standardLimit

end Minifun
