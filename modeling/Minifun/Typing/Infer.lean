import Minifun.Report.Trace
import Minifun.Text.Similar
import Minifun.Ty.Unify
import Minifun.Value.Basic

/-! # Type inference

The type of a term is found by giving fresh variables to what is not known and unifying what was
found with what the rule of the term asks for. Inference is monomorphic: a name has one type, which
later uses may refine. Variables come from a supply that never gives one twice.
-/

namespace Minifun

inductive TypeCause where
  | unbound (name : String) (similar : List String)
  /-- The rule described by the label asks two types to be equal. -/
  | clash (label : String) (clash : Clash)
  | unknownLiteral (text : String)
  | unknownOperator (symbol : String)
deriving DecidableEq, Repr, Inhabited

structure TypeError where
  cause : TypeCause
  loc : Option Loc
deriving DecidableEq, Repr, Inhabited

/-- What inference knows: the types of the names of the innermost scope, the bindings of variables,
the number of the next fresh variable, and the findings so far. -/
structure InferState where
  frame : Frame Ty := []
  subst : Subst := {}
  next : Nat := 0
  trace : Trace := {}
deriving DecidableEq, Repr, Inhabited

/-- A computation of inference. What it found out stays when it fails. -/
abbrev Infer := EStateM TypeError InferState

namespace Infer

def fail {α : Type} (cause : TypeCause) (loc : Option Loc) : Infer α :=
  throw ⟨cause, loc⟩

def fresh (constraint : Option Constraint) : Infer Ty :=
  fun s => .ok (.var s.next constraint) { s with next := s.next + 1 }

def resolve (t : Ty) : Infer Ty := do
  return (← get).subst.apply t

/-- Makes two types equal, for the rule that a label describes. -/
def unify (label : String) (loc : Option Loc) (a b : Ty) : Infer Unit :=
  fun s =>
    match s.subst.unify a b with
    | .ok subst => .ok () { s with subst := subst }
    | .error (subst, clash) => .error ⟨.clash label clash, loc⟩ { s with subst := subst }

def note (description : String) (loc : Option Loc) (t : Ty) : Infer Unit :=
  modify fun s =>
    { s with trace := s.trace.add ⟨description, loc, some (s.subst.externalize t).text⟩ }

def define (name : String) (t : Ty) : Infer Unit :=
  modify fun s => { s with frame := s.frame.define name t }

/-- Runs a computation with another innermost scope, which ends with it. -/
def within {α : Type} (frame : Frame Ty) (act : Infer α) : Infer α :=
  fun s =>
    match act { s with frame := frame } with
    | .ok a s' => .ok a { s' with frame := s.frame }
    | .error e s' => .error e { s' with frame := s.frame }

/-- The type of a name in the frames of a scope, innermost first. -/
def lookup (name : String) : List (Frame Ty) → Option Ty
  | [] => none
  | f :: fs =>
    match f.find? name with
    | some t => some t
    | none => lookup name fs

def nameType (outer : List (Frame Ty)) (name : String) (loc : Option Loc) : Infer Ty := do
  let frames := (← get).frame :: outer
  match (lookup name frames).filter fun t => !t.isNothing with
  | some t => resolve t
  | none =>
    let known := Frame.names (Frame.distinct frames.flatten)
    fail (.unbound name (Text.similarNames name known)) loc

def literalType (loc : Option Loc) : Value → Infer Ty
  | .int _ => return .int
  | .real _ => return .real
  | .bool _ => return .bool
  | v => fail (.unknownLiteral v.text) loc

def settle (name : String) (loc : Option Loc) (t : Ty) : Infer Ty := do
  let type ← resolve t
  define name type
  note ("val " ++ name) loc type
  return type

end Infer

namespace Term

open Infer (fresh resolve unify note define within nameType literalType settle fail)

mutual

/-- The type of a term in a scope, whose frames but the innermost are given. The right side of a
definition sees the name it defines only if it is written as a function. -/
@[simp] def infer (outer : List (Frame Ty)) : Expr → Infer Ty
  | .literal v loc => literalType loc v
  | .ident x loc => nameType outer x loc
  | .unary op e loc => do
    let operand ← e.infer outer
    match op with
    | .neg =>
      let result ← fresh (some .numeric)
      unify "negation requires a numeric operand." loc operand result
      resolve result
    | _ =>
      unify "'not' requires a bool operand." loc operand .bool
      return .bool
  | .binary op a b loc => do
    let left ← a.infer outer
    let right ← b.infer outer
    match op with
    | .arith op =>
      let operand ← fresh (some .numeric)
      let label := "'" ++ op.symbol ++ "' requires two numbers of the same type."
      unify label a.loc left operand
      unify label b.loc right operand
      resolve operand
    | .rel op =>
      let operand ← fresh (some .numeric)
      let label := "'" ++ op.symbol ++ "' requires two numbers of the same type."
      unify label a.loc left operand
      unify label b.loc right operand
      return .bool
    | .logic op =>
      let label := "'" ++ op.symbol ++ "' requires bool operands."
      unify label a.loc left .bool
      unify label b.loc right .bool
      return .bool
    | .concat =>
      let list := Ty.list (← fresh none)
      let label := "'++' requires two lists with the same element type."
      unify label a.loc left list
      unify label b.loc right list
      resolve list
    | .other symbol => fail (.unknownOperator symbol) loc
  | .list [] _ => return .list (← fresh none)
  | .list (e :: es) _ => do
    let elem ← e.infer outer
    inferElements outer elem es
    return .list (← resolve elem)
  | .head e loc => do
    let elem ← fresh none
    let arg ← e.infer outer
    unify "hd requires a list." loc arg (.list elem)
    resolve elem
  | .tail e loc => do
    let list := Ty.list (← fresh none)
    let arg ← e.infer outer
    unify "tl requires a list." loc arg list
    resolve list
  | .length e loc => do
    let arg ← e.infer outer
    unify "len requires a list." loc arg (.list (← fresh none))
    return .int
  | .cond c a b _ => do
    let test ← c.infer outer
    unify "if condition must be a bool." c.loc test .bool
    let yes ← a.infer outer
    let no ← b.infer outer
    unify "if branches must have the same type." b.loc yes no
    resolve yes
  | .lambda x body loc => do
    let param ← fresh none
    let here := (← get).frame
    let result ← within [(x, param)] (body.infer (here :: outer))
    let type := Ty.fn (← resolve param) (← resolve result)
    note ("fn " ++ x ++ " -> ...") loc type
    return type
  | .apply f a loc => do
    let function ← f.infer outer
    let argument ← a.infer outer
    let result ← fresh none
    unify "function application has incompatible types." loc function (.fn argument result)
    resolve result
  | .letIn x v body _ => do
    let bound ← v.infer outer
    let here := (← get).frame
    within [(x, bound)] (body.infer (here :: outer))
  | .val x e loc => do
    if e.isLambda then
      let placeholder := Ty.fn (← fresh none) (← fresh none)
      define x placeholder
      let type ← e.infer outer
      unify ("recursive use of '" ++ x ++ "' does not match its definition.") loc placeholder type
      settle x loc type
    else
      let type ← e.infer outer
      settle x loc type
  | .map f xs _ => do
    let function ← f.infer outer
    let list ← xs.infer outer
    let a ← fresh none
    let b ← fresh none
    unify "map: function must have type a -> b." f.loc function (.fn a b)
    unify "map: second argument must be a list of the function's input." xs.loc list (.list a)
    resolve (.list b)
  | .fold .left f i xs _ => do
    let function ← f.infer outer
    let initial ← i.infer outer
    let list ← xs.infer outer
    let a ← fresh none
    let b ← fresh none
    unify "foldl: init value has wrong type." i.loc initial a
    unify "foldl: third argument must be a list." xs.loc list (.list b)
    unify "foldl: function must have type a -> b -> a." f.loc function (.fn a (.fn b a))
    resolve a
  | .fold .right f i xs _ => do
    let function ← f.infer outer
    let initial ← i.infer outer
    let list ← xs.infer outer
    let a ← fresh none
    let b ← fresh none
    unify "foldr: third argument must be a list." xs.loc list (.list a)
    unify "foldr: init value has wrong type." i.loc initial b
    unify "foldr: function must have type a -> b -> b." f.loc function (.fn a (.fn b b))
    resolve b
  | .block ss _ => inferStatements outer .nothing ss

@[simp] def inferElements (outer : List (Frame Ty)) (elem : Ty) : List Expr → Infer Unit
  | [] => return
  | e :: es => do
    let type ← e.infer outer
    unify "All elements must be of the same type." e.loc elem type
    inferElements outer elem es

/-- The type of the last of several statements, or the given one if there are none. -/
@[simp] def inferStatements (outer : List (Frame Ty)) (last : Ty) : List Expr → Infer Ty
  | [] => return last
  | s :: ss => do
    let type ← s.infer outer
    inferStatements outer type ss

end

theorem infer_val_value (outer : List (Frame Ty)) (x : String) (e : Expr) (loc : Option Loc)
    (h : e.isLambda = false) : infer outer (.val x e loc) = e.infer outer >>= settle x loc := by
  rw [infer, if_neg (by simp [h])]

theorem infer_val_function (outer : List (Frame Ty)) (x : String) (e : Expr) (loc : Option Loc)
    (h : e.isLambda = true) : infer outer (.val x e loc) = (do
      let a ← fresh none
      let b ← fresh none
      define x (.fn a b)
      let function := do
        let type ← e.infer outer
        unify ("recursive use of '" ++ x ++ "' does not match its definition.") loc (.fn a b) type
        return type
      function >>= settle x loc) := by
  rw [infer, if_pos h]
  simp only [bind_assoc, pure_bind]

end Term

end Minifun
