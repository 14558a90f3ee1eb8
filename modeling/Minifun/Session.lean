import Minifun.Run
import Minifun.Text.Blank
import Minifun.Text.Order

/-! # Sessions

A session keeps definitions from one input to the next. An input is checked and evaluated on copies
of what the session knows, which take its place only if all statements succeed. The supply of fresh
variables alone goes on after a failure.
-/

namespace Minifun

/-- What a session knows, and whether it reports every answer of a statement. -/
structure Session where
  checker : Checker := {}
  next : Nat := 0
  frame : Frame Value := []
  history : List String := []
  tracing : Bool := false
  depth : Nat := standardDepth

/-- The answer of an execution: the answers and types of the statements, or the failure; the answers
of the statements that were evaluated; and the session after it. -/
structure Executed where
  outcome : Except Failure (List (Value × Ty))
  evaluated : List Value
  session : Session

namespace Session

/-- An input without the blanks around it, and with a semicolon at its end. -/
def terminated (source : String) : String :=
  let s := Text.trim source
  if s.endsWith ";" then s else s ++ ";"

def evaluate (s : Session) (ss : List Expr) : Evaluated :=
  Program.evalEach s.tracing s.depth ss s.frame

def execute (s : Session) (source : String) : Executed :=
  match Program.parse (terminated source) none with
  | .error e => ⟨.error e, [], s⟩
  | .ok p =>
    match s.checker.checkEach ⟨s.next, {}⟩ p.statements with
    | (.error e, _, shared) => ⟨.error (.typing e), [], { s with next := shared.next }⟩
    | (.ok types, checker, shared) =>
      let result := s.evaluate p.statements
      match result.stop with
      | some stop =>
        ⟨.error stop.failure, result.answers, { s with next := shared.next }⟩
      | none =>
        ⟨.ok (result.answers.zip types), result.answers,
          { s with
            checker := checker
            next := shared.next
            frame := result.frame
            history := s.history ++ [source] }⟩

section

variable {s : Session} {source : String} {ss : List Expr} {p : Program}
  {checker : Checker} {shared : Shared}

theorem evaluate_eq_evalAll (h : s.tracing = false) :
    s.evaluate ss = Program.evalAll s.depth ss s.frame := by
  rw [evaluate, h, Program.evalAll]

theorem evaluate_of_stop_eq_none (h : (s.evaluate ss).stop = none) :
    s.evaluate ss = Program.evalAll s.depth ss s.frame :=
  Program.evalEach_of_stop_eq_none h

theorem execute_of_unread {e : Failure} (hp : Program.parse (terminated source) none = .error e) :
    s.execute source = ⟨.error e, [], s⟩ := by
  unfold execute
  simp only [hp]

theorem execute_of_illTyped {e : TypeError} (hp : Program.parse (terminated source) none = .ok p)
    (hc : s.checker.checkEach ⟨s.next, {}⟩ p.statements = (.error e, checker, shared)) :
    s.execute source = ⟨.error (.typing e), [], { s with next := shared.next }⟩ := by
  unfold execute
  simp only [hp, hc]

theorem execute_of_stopped {types : List Ty} {stop : Stop}
    (hp : Program.parse (terminated source) none = .ok p)
    (hc : s.checker.checkEach ⟨s.next, {}⟩ p.statements = (.ok types, checker, shared))
    (hs : (s.evaluate p.statements).stop = some stop) :
    s.execute source =
      ⟨.error stop.failure, (s.evaluate p.statements).answers,
        { s with next := shared.next }⟩ := by
  unfold execute
  simp only [hp, hc, hs]

theorem execute_of_ok {types : List Ty} (hp : Program.parse (terminated source) none = .ok p)
    (hc : s.checker.checkEach ⟨s.next, {}⟩ p.statements = (.ok types, checker, shared))
    (hs : (s.evaluate p.statements).stop = none) :
    s.execute source =
      let result := s.evaluate p.statements
      ⟨.ok (result.answers.zip types), result.answers,
        { s with
          checker := checker
          next := shared.next
          frame := result.frame
          history := s.history ++ [source] }⟩ := by
  unfold execute
  simp only [hp, hc, hs]

end

/-- The type of an input, which is neither evaluated nor kept. -/
def typeOf (s : Session) (source : String) : Except Failure Ty × Session :=
  match Program.parse (terminated source) none with
  | .error e => (.error e, s)
  | .ok p =>
    let checked := s.checker.check ⟨s.next, {}⟩ p.statements
    let session := { s with next := checked.shared.next }
    match checked.outcome with
    | .error e => (.error (.typing e), session)
    | .ok type => (.ok type, session)

def definitions (s : Session) : List (String × Ty) :=
  Text.sortBy (fun a b => Text.nameLe a.1 b.1) s.checker.globals

def names (s : Session) : List String :=
  s.frame.names

end Session

end Minifun
