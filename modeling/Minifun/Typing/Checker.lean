import Minifun.Program.Parser
import Minifun.Typing.Infer

/-! # Type checkers

A checker keeps the types of the names defined so far and what is known about their variables, so
that programs checked one after the other see each other's definitions. A copy of a checker goes its
own way, but all copies draw fresh variables from one supply, and all note their findings in one
trace. Both are therefore kept outside the checker.
-/

namespace Minifun

structure Checker where
  frame : Frame Ty := []
  subst : Subst := {}
deriving DecidableEq, Repr, Inhabited

/-- What all checkers of a session share: the number of the next fresh variable, and the trace. -/
structure Shared where
  next : Nat := 0
  trace : Trace := {}
deriving DecidableEq, Repr, Inhabited

structure Checked where
  outcome : Except TypeError Ty
  checker : Checker
  shared : Shared

namespace Checker

def start (c : Checker) (shared : Shared) : InferState :=
  ⟨c.frame, c.subst, shared.next, shared.trace⟩

def after (s : InferState) : Checker × Shared :=
  (⟨s.frame, s.subst⟩, ⟨s.next, s.trace⟩)

/-- Checks statements. The type of the last one is the answer, as it is shown outside. A failure
leaves what was found before it. -/
def check (c : Checker) (shared : Shared) (statements : List Expr) : Checked :=
  match Term.inferStatements [] .nothing statements (c.start shared) with
  | .ok type s =>
    let (checker, shared) := after s
    ⟨.ok (s.subst.externalize type), checker, shared⟩
  | .error e s =>
    let (checker, shared) := after s
    ⟨.error e, checker, shared⟩

def typeOf? (c : Checker) (name : String) : Option Ty :=
  (c.frame.find? name).map c.subst.externalize

def globals (c : Checker) : List (String × Ty) :=
  c.frame.map fun b => (b.1, c.subst.externalize b.2)

/-- Checks statements one by one. The answers are the types of all of them, each as it is shown
outside right after its statement. -/
def checkEach (c : Checker) (shared : Shared) :
    List Expr → Except TypeError (List Ty) × Checker × Shared
  | [] => (.ok [], c, shared)
  | s :: ss =>
    let first := c.check shared [s]
    match first.outcome with
    | .error e => (.error e, first.checker, first.shared)
    | .ok type =>
      let (rest, checker, shared) := first.checker.checkEach first.shared ss
      (rest.map (type :: ·), checker, shared)

end Checker

end Minifun
