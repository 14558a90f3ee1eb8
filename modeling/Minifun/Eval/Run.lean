import Minifun.Eval.Operation
import Minifun.Text.Similar

/-! # Evaluation

A term is evaluated in a scope whose innermost frame may grow: a definition adds its name there, and
the name stays also when what follows fails. The right operand of a logical operator and the
branches of a condition are evaluated only when they are needed.

The evaluation of a term follows its structure, up to the entering of closures. That is bounded by
the number of calls that may be open at once.
-/

namespace Minifun

/-- An evaluation in a frame. The frame it leaves behind stays also when it fails. -/
abbrev Eval := EStateM Stop (Frame Value)

/-- How a closure, given by its parameter, body and scope, is entered with an argument. -/
abbrev Enter := String → Expr → Scope Value → Value → Except Stop Value

/-- A value as a name is bound to it. A closure can then call itself by the name. -/
def Value.tied (name : String) : Value → Value
  | .closure param body scope => .closure param body (.knot name param body scope)
  | v => v

namespace Eval

def fail {α : Type} (cause : EvalCause) (loc : Option Loc) : Eval α :=
  throw (.error ⟨cause, loc⟩)

/-- A computation that does not depend on the frame. -/
def lift {α : Type} (r : Except Stop α) : Eval α :=
  match r with
  | .ok a => return a
  | .error e => throw e

/-- The scope with the frame as its innermost one. -/
def scope (outer : Scope Value) : Eval (Scope Value) := do
  return .frame (← get) outer

def nameValue (outer : Scope Value) (name : String) (loc : Option Loc) : Eval Value := do
  let s ← scope outer
  match s.lookup name with
  | none | some .nothing => fail (.unbound name (Text.similarNames name s.names)) loc
  | some v => return v

/-- An answer that can be used as a value. -/
def demand (loc : Option Loc) (act : Eval Value) : Eval Value := do
  let v ← act
  if v.isValue then return v else fail .notAValue loc

def elements (what : String) (loc : Option Loc) : Value → Eval (List Value)
  | .list vs => return vs
  | v => fail (.notAList what v.cls) loc

def callee (enter : Enter) (what : String) (loc : Option Loc) :
    Value → Eval (Value → Except Stop Value)
  | .closure param body scope => return enter param body scope
  | v => fail (.notAFunction what v.cls) loc

/-- Applies a function that answers with a function to two arguments. -/
def callTwice (enter : Enter) (keyword : String) (loc : Option Loc)
    (call : Value → Except Stop Value) (first second : Value) : Except Stop Value := do
  match ← call first with
  | .closure param body scope => enter param body scope second
  | _ => .error (.error ⟨.notCurried keyword, loc⟩)

/-- Runs a function along a list from one of its ends. -/
def foldValues (side : Side) (step : Value → Value → Except Stop Value) (initial : Value)
    (vs : List Value) : Except Stop Value :=
  match side with
  | .left => vs.foldlM step initial
  | .right => vs.reverse.foldlM (fun acc v => step v acc) initial

def bind (name : String) (v : Value) : Eval Unit :=
  modify (Frame.define name (v.tied name))

/-- An evaluation of a statement at a place, where calls that nest too deeply are an error. -/
def statement (loc : Option Loc) (act : Eval Value) : Eval Value :=
  fun frame =>
    match act frame with
    | .error .outOfDepth frame => .error (.error ⟨.tooDeep, loc⟩) frame
    | r => r

/-- Runs an evaluation in a frame of its own, which ends with it. -/
def within (frame : Frame Value) (act : Eval Value) : Except Stop Value :=
  match act frame with
  | .ok v _ => .ok v
  | .error e _ => .error e

end Eval

namespace Term

open Eval (fail lift scope nameValue demand elements callee callTwice foldValues bind within)

mutual

/-- Evaluates a term, given how closures are entered and the scope around the frame. -/
@[simp] def evalWith (enter : Enter) (outer : Scope Value) : Expr → Eval Value
  | .literal v _ => return v
  | .ident x loc => nameValue outer x loc
  | .unary op e loc => do
    let v ← demand e.loc (e.evalWith enter outer)
    lift (v.negate op loc)
  | .binary (.logic op) a b _ => do
    match ← demand a.loc (a.evalWith enter outer) with
    | .bool left =>
      if op.decides left then return .bool left
      else
        match ← demand b.loc (b.evalWith enter outer) with
        | .bool right => return .bool right
        | v => fail (.badLogic op.symbol v.cls) b.loc
    | v => fail (.badLogic op.symbol v.cls) a.loc
  | .binary op a b loc => do
    let left ← demand a.loc (a.evalWith enter outer)
    let right ← demand b.loc (b.evalWith enter outer)
    lift (left.operate op right loc)
  | .list es _ => do
    return .list (← evalElements enter outer none es)
  | .head e loc => do
    let v ← demand e.loc (e.evalWith enter outer)
    match ← elements "Argument of hd" e.loc v with
    | [] => fail (.emptyList "hd") loc
    | first :: _ => return first
  | .tail e loc => do
    let v ← demand e.loc (e.evalWith enter outer)
    match ← elements "Argument of tl" e.loc v with
    | [] => fail (.emptyList "tl") loc
    | _ :: rest => return .list rest
  | .length e _ => do
    let v ← demand e.loc (e.evalWith enter outer)
    let vs ← elements "Argument of len" e.loc v
    return .int vs.length
  | .cond c a b _ => do
    match ← demand c.loc (c.evalWith enter outer) with
    | .bool true => demand a.loc (a.evalWith enter outer)
    | .bool false => demand b.loc (b.evalWith enter outer)
    | v => fail (.badCondition v.cls) c.loc
  | .lambda x body _ => do
    return .closure x body (← scope outer).snapshot
  | .apply f a _ => do
    let function ← demand f.loc (f.evalWith enter outer)
    let call ← callee enter "Applied expression" f.loc function
    let argument ← demand a.loc (a.evalWith enter outer)
    lift (call argument)
  | .letIn x v body _ => do
    let bound ← demand v.loc (v.evalWith enter outer)
    let s ← scope outer
    lift (within [(x, bound)] (demand body.loc (body.evalWith enter s)))
  | .val x e loc => do
    if (← get).defines x then fail (.alreadyDefined x) loc
    else
      let v ← demand e.loc (e.evalWith enter outer)
      bind x v
      return .name x
  | .map f xs _ => do
    let function ← demand f.loc (f.evalWith enter outer)
    let call ← callee enter "First argument of map" f.loc function
    let list ← demand xs.loc (xs.evalWith enter outer)
    let vs ← elements "Second argument of map" xs.loc list
    return .list (← lift (vs.mapM call))
  | .fold side f i xs _ => do
    let function ← demand f.loc (f.evalWith enter outer)
    let call ← callee enter ("First argument of " ++ side.keyword) f.loc function
    let initial ← demand i.loc (i.evalWith enter outer)
    let list ← demand xs.loc (xs.evalWith enter outer)
    let vs ← elements ("Third argument of " ++ side.keyword) xs.loc list
    lift (foldValues side (callTwice enter side.keyword f.loc call) initial vs)
  | .block ss _ => evalStatements enter outer .nothing ss

/-- Evaluates the elements of a list, which are of the class of the first one and no lists. -/
@[simp] def evalElements (enter : Enter) (outer : Scope Value) (first : Option Value) :
    List Expr → Eval (List Value)
  | [] => return []
  | e :: es => do
    let v ← demand e.loc (e.evalWith enter outer)
    if v.isList then fail .nestedList e.loc
    else
      match first with
      | none => return v :: (← evalElements enter outer (some v) es)
      | some u =>
        if u.sameClass v then return v :: (← evalElements enter outer (some u) es)
        else fail (.mixedElements u.cls v.cls) e.loc

/-- Evaluates statements. The answer is that of the last one, or the given one if there are none. -/
@[simp] def evalStatements (enter : Enter) (outer : Scope Value) (last : Value) :
    List Expr → Eval Value
  | [] => return last
  | s :: ss => do
    let v ← Eval.statement s.loc (s.evalWith enter outer)
    evalStatements enter outer v ss

end

theorem evalWith_lambda (enter : Enter) (outer : Scope Value) (x : String) (body : Expr)
    (loc : Option Loc) (frame : Frame Value) :
    (Term.lambda x body loc).evalWith enter outer frame =
      .ok (.closure x body (Scope.frame frame outer).snapshot) frame := by
  rw [evalWith]
  rfl

theorem evalWith_val (enter : Enter) (outer : Scope Value) (x : String) (e : Expr)
    (loc : Option Loc) (frame : Frame Value) :
    (Term.val x e loc).evalWith enter outer frame =
      if frame.defines x then .error (.error ⟨.alreadyDefined x, loc⟩) frame
      else
        match demand e.loc (e.evalWith enter outer) frame with
        | .ok v frame' => .ok (.name x) (frame'.define x (v.tied x))
        | .error stop frame' => .error stop frame' := by
  rw [evalWith]
  by_cases h : frame.defines x
  · rw [if_pos h]
    exact congrFun (if_pos h) frame
  · rw [if_neg h]
    refine (congrFun (if_neg h) frame).trans ?_
    change EStateM.bind _ _ frame = _
    unfold EStateM.bind
    cases demand e.loc (e.evalWith enter outer) frame <;> rfl

/-- Enters a closure when at most so many calls may be open, this one included. The callee sees the
scope the closure was made in, not that of the caller. -/
def enterWithin : Nat → Enter
  | 0 => fun _ _ _ _ => .error .outOfDepth
  | depth + 1 => fun param body scope argument =>
    within [(param, argument)] (body.evalWith (enterWithin depth) scope)

/-- Evaluates a term in a scope of one frame, with a bound on the calls open at once. -/
def eval (depth : Nat) (e : Expr) : Eval Value :=
  e.evalWith (enterWithin depth) .empty

def evalStatement (depth : Nat) (e : Expr) : Eval Value :=
  Eval.statement e.loc (e.eval depth)

end Term

/-- The evaluation of a program: the answers of the statements that have one, what stopped the
evaluation, if anything did, and the frame it left behind. -/
structure Evaluated where
  answers : List Value
  stop : Option Stop
  frame : Frame Value

namespace Program

/-- Evaluates statements one after the other until one fails. If every answer is reported, one that
has no written form breaks the report, and the evaluation with it. -/
def evalEach (reporting : Bool) (depth : Nat) : List Expr → Frame Value → Evaluated
  | [], frame => ⟨[], none, frame⟩
  | s :: ss, frame =>
    match s.evalStatement depth frame with
    | .error stop frame => ⟨[], some stop, frame⟩
    | .ok v frame =>
      if reporting && !v.isWritten then ⟨[], some (.broken .unwritten), frame⟩
      else
        let rest := evalEach reporting depth ss frame
        ⟨v :: rest.answers, rest.stop, rest.frame⟩

def evalAll (depth : Nat) (ss : List Expr) (frame : Frame Value) : Evaluated :=
  evalEach false depth ss frame

section

variable {reporting : Bool} {depth : Nat} {s : Expr} {frame frame' : Frame Value} {v : Value}
  {stop : Stop}

theorem evalEach_cons_of_error (h : s.evalStatement depth frame = .error stop frame')
    (ss : List Expr) : evalEach reporting depth (s :: ss) frame = ⟨[], some stop, frame'⟩ := by
  simp only [evalEach, h]

theorem evalEach_cons_of_ok (h : s.evalStatement depth frame = .ok v frame') (ss : List Expr) :
    evalEach reporting depth (s :: ss) frame =
      if reporting && !v.isWritten then ⟨[], some (.broken .unwritten), frame'⟩
      else ⟨v :: (evalEach reporting depth ss frame').answers,
        (evalEach reporting depth ss frame').stop, (evalEach reporting depth ss frame').frame⟩ := by
  simp only [evalEach, h]

@[simp] theorem evalAll_nil (depth : Nat) (frame : Frame Value) :
    evalAll depth [] frame = ⟨[], none, frame⟩ := rfl

theorem evalAll_cons_of_error (h : s.evalStatement depth frame = .error stop frame')
    (ss : List Expr) : evalAll depth (s :: ss) frame = ⟨[], some stop, frame'⟩ :=
  evalEach_cons_of_error h ss

theorem evalAll_cons_of_ok (h : s.evalStatement depth frame = .ok v frame') (ss : List Expr) :
    evalAll depth (s :: ss) frame =
      ⟨v :: (evalAll depth ss frame').answers, (evalAll depth ss frame').stop,
        (evalAll depth ss frame').frame⟩ :=
  evalEach_cons_of_ok h ss

theorem evalEach_of_stop_eq_none {ss : List Expr}
    (h : (evalEach reporting depth ss frame).stop = none) :
    evalEach reporting depth ss frame = evalAll depth ss frame := by
  induction ss generalizing frame with
  | nil => rfl
  | cons s ss ih =>
    cases hs : s.evalStatement depth frame with
    | error stop frame' => rw [evalEach_cons_of_error hs, evalAll_cons_of_error hs]
    | ok v frame' =>
      rw [evalEach_cons_of_ok hs] at h ⊢
      split at h
      · cases h
      · rename_i hwritten
        rw [if_neg hwritten, evalAll_cons_of_ok hs, ih h]

theorem stop_evalAll_of_evalEach {ss : List Expr} {e : EvalError}
    (h : (evalEach reporting depth ss frame).stop = some (.error e)) :
    (evalAll depth ss frame).stop = some (.error e) := by
  induction ss generalizing frame with
  | nil => cases h
  | cons s ss ih =>
    cases hs : s.evalStatement depth frame with
    | error stop frame' =>
      rw [evalEach_cons_of_error hs] at h
      rw [evalAll_cons_of_error hs]
      exact h
    | ok v frame' =>
      rw [evalEach_cons_of_ok hs] at h
      rw [evalAll_cons_of_ok hs]
      split at h
      · cases h
      · exact ih h

end

end Program

def Evaluated.answer (e : Evaluated) : Value :=
  e.answers.getLastD .nothing

end Minifun
