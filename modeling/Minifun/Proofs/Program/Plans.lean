import Minifun.Proofs.Program.Derivations

/-! # The reader with its calls

A plan is what a reading function does, where the calls of reading functions are steps of their own.
So the calls can be seen that a reading function makes, and carried out with the reading functions
for these calls the plan is the reading function again.
-/

namespace Minifun

namespace Parse

inductive Procedure where
  | statements | statement | expression | logical | logicalRest | relational | additive
  | additiveRest | product | productRest | factor | argument | folded | elements | applications
deriving DecidableEq, Repr

/-- How far up a reading function stands. Before it reads a token it calls only lower ones. -/
@[simp] def Procedure.rank : Procedure → Nat
  | statements => 9
  | statement => 8
  | expression => 7
  | logical => 6
  | relational => 5
  | additive => 4
  | product => 3
  | factor => 2
  | logicalRest | additiveRest | productRest | argument | folded | elements | applications => 1

inductive Call where
  | statements
  | statement
  | expression
  | logical
  | logicalRest (left : Expr)
  | relational
  | additive
  | additiveRest (left : Expr)
  | product
  | productRest (left : Expr)
  | factor
  | argument
  | folded (side : Side) (loc : Loc)
  | elements
  | applications (function : Expr)

namespace Call

@[simp] def procedure : Call → Procedure
  | statements => .statements
  | statement => .statement
  | expression => .expression
  | logical => .logical
  | logicalRest _ => .logicalRest
  | relational => .relational
  | additive => .additive
  | additiveRest _ => .additiveRest
  | product => .product
  | productRest _ => .productRest
  | factor => .factor
  | argument => .argument
  | folded _ _ => .folded
  | elements => .elements
  | applications _ => .applications

abbrev Result : Call → Type
  | statements => List Expr
  | statement => Expr
  | expression => Expr
  | logical => Expr
  | logicalRest _ => Expr
  | relational => Expr
  | additive => Expr
  | additiveRest _ => Expr
  | product => Expr
  | productRest _ => Expr
  | factor => Expr
  | argument => Expr
  | folded _ _ => Expr
  | elements => List Expr
  | applications _ => Expr

def read (file : Option String) (fuel bound : Nat) : (c : Call) → Parse c.Result
  | statements => Parse.statements file fuel bound
  | statement => Parse.statement file fuel
  | expression => Parse.expression file fuel
  | logical => Parse.logical file fuel
  | logicalRest left => Parse.logicalRest file fuel left
  | relational => Parse.relational file fuel
  | additive => Parse.additive file fuel
  | additiveRest left => Parse.additiveRest file fuel left
  | product => Parse.product file fuel
  | productRest left => Parse.productRest file fuel left
  | factor => Parse.factor file fuel
  | argument => Parse.argument file fuel
  | folded side loc => Parse.folded file fuel side loc
  | elements => Parse.elements file fuel
  | applications function => Parse.applications file fuel function

end Call

/-- What a reading function does, step by step. -/
inductive Plan (α : Type) where
  | done (a : α)
  | fail (cause : ParseCause)
  | look (next : Token → Plan α)
  | advance (next : Plan α)
  | call (c : Call) (next : c.Result → Plan α)

namespace Plan

variable {α β : Type}

def bind : Plan α → (α → Plan β) → Plan β
  | done a, f => f a
  | fail cause, _ => fail cause
  | look next, f => look fun t => (next t).bind f
  | advance next, f => advance (next.bind f)
  | call c next, f => call c fun a => (next a).bind f

instance : Monad Plan where
  pure := done
  bind := bind

variable (file : Option String)

def current : Plan Token :=
  look done

def kind : Plan TokenKind := do
  return (← current).kind

def here : Plan Loc := do
  return (← current).loc file

def next : Plan Unit :=
  advance (done ())

def expect (k : TokenKind) : Plan Token := do
  let t ← current
  if t.kind = k then
    next
    return t
  else fail (.expected k t.found)

def consume (k : TokenKind) : Plan Bool := do
  if (← kind) = k then
    next
    return true
  else return false

def request (c : Call) : Plan c.Result :=
  call c done

/-- Carries out a plan, given what calls do. -/
def run (answer : ∀ c : Call, Parse c.Result) : Plan α → Parse α
  | done a => pure a
  | fail cause => Parse.fail file cause
  | look next => Parse.current >>= fun t => (next t).run answer
  | advance next => Parse.advance >>= fun _ => next.run answer
  | call c next => answer c >>= fun a => (next a).run answer

def statements : Plan (List Expr) := do
  match ← kind with
  | .eof => return []
  | _ =>
    let first ← request .statement
    let _ ← expect .semicolon
    let rest ← request .statements
    return first :: rest

def statement : Plan Expr := do
  match ← kind with
  | .valWord =>
    let loc ← here file
    next
    let name ← expect .ident
    let param ← current
    match param.kind with
    | .ident =>
      next
      let _ ← expect .assign
      let body ← request .expression
      return .val name.text (.lambda param.text body (some (param.loc file))) loc
    | _ =>
      let _ ← expect .assign
      let value ← request .expression
      return .val name.text value loc
  | _ => request .expression

def expression : Plan Expr := do
  let loc ← here file
  match ← kind with
  | .letWord =>
    next
    let name ← expect .ident
    let _ ← expect .assign
    let value ← request .expression
    let _ ← expect .inWord
    let body ← request .expression
    return .letIn name.text value body loc
  | .ifWord =>
    next
    let test ← request .expression
    let _ ← expect .thenWord
    let yes ← request .expression
    let _ ← expect .elseWord
    let no ← request .expression
    return .cond test yes no loc
  | .fnWord =>
    next
    let param ← expect .ident
    let _ ← expect .arrow
    let body ← request .expression
    return .lambda param.text body loc
  | _ => request .logical

def joined (operand : Plan Expr) (more : Expr → Plan Expr) : Plan Expr := do
  let left ← operand
  more left

def further (op? : TokenKind → Option BinOp) (operand : Plan Expr) (more : Expr → Plan Expr)
    (left : Expr) : Plan Expr := do
  match op? (← kind) with
  | none => return left
  | some op =>
    let loc ← here file
    next
    let right ← operand
    more (.binary op left right loc)

def product : Plan Expr := do
  match ← kind with
  | .notWord =>
    let loc ← here file
    next
    let operand ← request .relational
    return .unary .not operand loc
  | _ => joined (request .factor) fun left => request (.productRest left)

def factor : Plan Expr := do
  let token ← current
  let loc := token.loc file
  match token.kind with
  | .minus =>
    next
    let operand ← request .factor
    return .unary .neg operand loc
  | .hdWord =>
    let arg ← request .argument
    return .head arg loc
  | .tlWord =>
    let arg ← request .argument
    return .tail arg loc
  | .lenWord =>
    let arg ← request .argument
    return .length arg loc
  | .mapWord =>
    next
    let _ ← expect .lparen
    let function ← request .expression
    let list ← request .expression
    let _ ← expect .rparen
    return .map function list loc
  | .foldlWord => request (.folded .left loc)
  | .foldrWord => request (.folded .right loc)
  | .lbracket =>
    next
    if ← consume .rbracket then return .list [] loc
    else
      let first ← request .expression
      let rest ← request .elements
      let _ ← expect .rbracket
      return .list (first :: rest) loc
  | .lparen =>
    next
    let inner ← request .expression
    let _ ← expect .rparen
    request (.applications inner)
  | .int =>
    match Text.readInt token.text with
    | .ok i =>
      next
      return .literal (.int i) loc
    | .error .malformed => fail (.broken (.badInt token.text))
    | .error (.tooLong digits) => fail (.broken (.longInt digits))
  | .real =>
    match Text.readReal? token.text with
    | some x =>
      next
      return .literal (.real x) loc
    | none => fail (.broken (.badReal token.text))
  | .bool =>
    next
    return .literal (.bool (token.text == "true")) loc
  | .ident =>
    next
    request (.applications (.ident token.text loc))
  | _ => fail (.unexpected token.found)

def argument : Plan Expr := do
  next
  let _ ← expect .lparen
  let arg ← request .expression
  let _ ← expect .rparen
  return arg

def folded (side : Side) (loc : Loc) : Plan Expr := do
  next
  let _ ← expect .lparen
  let function ← request .expression
  let initial ← request .expression
  let list ← request .expression
  let _ ← expect .rparen
  return .fold side function initial list loc

def elements : Plan (List Expr) := do
  if ← consume .comma then
    let first ← request .expression
    let rest ← request .elements
    return first :: rest
  else return []

def applications (function : Expr) : Plan Expr := do
  match ← kind with
  | .lparen =>
    let loc ← here file
    next
    let arg ← request .expression
    let _ ← expect .rparen
    request (.applications (.apply function arg loc))
  | _ => return function

end Plan

def Call.plan (file : Option String) : (c : Call) → Plan c.Result
  | statements => Plan.statements
  | statement => Plan.statement file
  | expression => Plan.expression file
  | logical => Plan.joined (Plan.request .relational) fun e => Plan.request (.logicalRest e)
  | logicalRest left =>
    Plan.further file logicOp? (Plan.request .relational)
      (fun e => Plan.request (.logicalRest e)) left
  | relational =>
    Plan.joined (Plan.request .additive)
      (Plan.further file relOp? (Plan.request .additive) fun e => return e)
  | additive => Plan.joined (Plan.request .product) fun e => Plan.request (.additiveRest e)
  | additiveRest left =>
    Plan.further file sumOp? (Plan.request .product) (fun e => Plan.request (.additiveRest e)) left
  | product => Plan.product file
  | productRest left =>
    Plan.further file productOp? (Plan.request .factor)
      (fun e => Plan.request (.productRest e)) left
  | factor => Plan.factor file
  | argument => Plan.argument
  | folded side loc => Plan.folded side loc
  | elements => Plan.elements
  | applications function => Plan.applications file function

namespace Plan

variable {α β : Type} {file : Option String} {answer : ∀ c : Call, Parse c.Result}

theorem run_bind (p : Plan α) (f : α → Plan β) :
    (p >>= f).run file answer = p.run file answer >>= fun a => (f a).run file answer := by
  change (p.bind f).run file answer = _
  induction p with
  | done a => rfl
  | fail cause => rfl
  | look next ih => simp only [bind, run, ih, bind_assoc]
  | advance next ih => simp only [bind, run, ih, bind_assoc]
  | call c next ih => simp only [bind, run, ih, bind_assoc]

theorem eq_run_bind {m : Parse α} {k : α → Parse β} {p : Plan α} {f : α → Plan β}
    (hp : p.run file answer = m) (hf : ∀ a, k a = (f a).run file answer) :
    m >>= k = (p >>= f).run file answer := by
  rw [run_bind, hp, funext hf]

@[simp] theorem run_pure (a : α) : (pure a : Plan α).run file answer = pure a := rfl

@[simp] theorem run_fail (cause : ParseCause) :
    (fail cause : Plan α).run file answer = Parse.fail file cause := rfl

@[simp] theorem run_current : current.run file answer = Parse.current := rfl

@[simp] theorem run_kind : kind.run file answer = Parse.kind := rfl

@[simp] theorem run_here : (here file).run file answer = Parse.here file := rfl

@[simp] theorem run_next : next.run file answer = Parse.advance := rfl

@[simp] theorem run_request (c : Call) :
    @run (no_index c.Result) file answer (request c) = answer c :=
  bind_pure (answer c)

@[simp] theorem run_expect (k : TokenKind) :
    (expect k).run file answer = Parse.expect file k := by
  refine (eq_run_bind run_current fun t => ?_).symm
  split <;> rfl

@[simp] theorem run_consume (k : TokenKind) :
    (consume k).run file answer = Parse.consume k := by
  refine (eq_run_bind run_kind fun kind => ?_).symm
  split <;> rfl

end Plan

namespace Call

@[simp] def rank (c : Call) : Nat :=
  c.procedure.rank

section Unfolding

open Plan

variable (file : Option String) (n k : Nat)

theorem read_statements :
    read file n (k + 1) statements = (plan file statements).run file (read file n k) := by
  refine eq_run_bind run_kind fun kind => ?_
  cases kind <;> simp [run_bind, read]

theorem read_statement :
    read file n k statement = (plan file statement).run file (read file n k) := by
  refine eq_run_bind run_kind fun kind => ?_
  cases kind with
  | valWord =>
    refine eq_run_bind run_here fun loc => eq_run_bind run_next fun _ =>
      eq_run_bind (run_expect _) fun name => eq_run_bind run_current fun param => ?_
    cases param.kind <;> simp [run_bind, read]
  | _ => simp [read]

theorem read_expression :
    read file (n + 1) k expression = (plan file expression).run file (read file n k) := by
  refine eq_run_bind run_here fun loc => eq_run_bind run_kind fun kind => ?_
  cases kind <;> simp [run_bind, read]

theorem read_product :
    read file (n + 1) k product = (plan file product).run file (read file n k) := by
  refine eq_run_bind run_kind fun kind => ?_
  cases kind <;> simp [run_bind, joined, read]

theorem read_factor :
    read file (n + 1) k factor = (plan file factor).run file (read file n k) := by
  refine eq_run_bind run_current fun token => ?_
  cases token.kind with
  | int =>
    cases Text.readInt token.text with
    | ok i => simp [run_bind]
    | error fault => cases fault <;> simp
  | real => cases Text.readReal? token.text <;> simp [run_bind]
  | lbracket =>
    refine eq_run_bind run_next fun _ => eq_run_bind (run_consume _) fun empty => ?_
    cases empty <;> simp [run_bind, read]
  | _ => simp [run_bind, read]

/-- A reading function with fuel does what its plan says with fuel less by one. -/
theorem read_succ {c : Call} (hc : c.rank ≤ 7) :
    read file (n + 1) k c = (plan file c).run file (read file n k) := by
  cases c with
  | statements | statement => simp at hc
  | expression => exact read_expression file n k
  | product => exact read_product file n k
  | factor => exact read_factor file n k
  | logical => simp [plan, joined, run_bind, read, Parse.logical]
  | additive => simp [plan, joined, run_bind, read, Parse.additive]
  | logicalRest left =>
    refine eq_run_bind run_kind fun kind => ?_
    cases logicOp? kind <;> simp [run_bind, read]
  | additiveRest left =>
    refine eq_run_bind run_kind fun kind => ?_
    cases sumOp? kind <;> simp [run_bind, read]
  | productRest left =>
    refine eq_run_bind run_kind fun kind => ?_
    cases productOp? kind <;> simp [run_bind, read]
  | relational =>
    refine eq_run_bind (run_request additive) fun left => eq_run_bind run_kind fun kind => ?_
    cases relOp? kind <;> simp [run_bind, read]
  | argument => simp [plan, Plan.argument, run_bind, read, Parse.argument]
  | folded side loc => simp [plan, Plan.folded, run_bind, read, Parse.folded]
  | elements =>
    refine eq_run_bind (run_consume _) fun more => ?_
    cases more <;> simp [run_bind, read]
  | applications function =>
    refine eq_run_bind run_kind fun kind => ?_
    cases kind <;> simp [run_bind, read]

end Unfolding

end Call

end Parse

end Minifun
