import Minifun.Breakdown
import Minifun.Term.Dump
import Minifun.Text.Numeral
import Minifun.Token.Lexer

/-! # From tokens to programs

The grammar has a level for each precedence: logical operators, then one comparison, then sums, then
products, then factors. All operators but the comparisons are read to the left. `let`, `if` and `fn`
reach as far as they can.

The reader never goes past the last token. Every call takes one unit of fuel, and between a call and
the same call within it a token is read, so fuel in proportion to the number of tokens suffices when
the last token is the end of the text.
-/

namespace Minifun

/-- Statements and the place where the text of the first one begins. -/
structure Program where
  statements : List Expr
  loc : Loc

namespace Program

def block (p : Program) : Expr :=
  .block p.statements (some p.loc)

def dump (indent : Int) (p : Program) : String :=
  p.block.dump indent

end Program

inductive ParseCause where
  | expected (kind : TokenKind) (found : String)
  | unexpected (found : String)
  /-- A numeral without a number, or tokens without an end of the text that are read over and
  over. -/
  | broken (breakdown : Breakdown)
deriving DecidableEq, Repr, Inhabited

structure ParseError where
  cause : ParseCause
  loc : Loc
deriving DecidableEq, Repr, Inhabited

/-- The token at a distance after the first one, if there is one. A negative distance counts from
behind the last token, and must not lead beyond the first. -/
def Token.ahead (tokens : List Token) (distance : Int) : Except Breakdown (Option Token) :=
  if 0 ≤ distance then .ok tokens[distance.toNat]?
  else if distance.natAbs ≤ tokens.length then .ok tokens[tokens.length - distance.natAbs]?
  else .error .outOfRange

structure TokenStream where
  current : Token
  rest : List Token
deriving DecidableEq, Repr, Inhabited

namespace TokenStream

/-- The stream of a list of tokens. No tokens are an end of the text. -/
def ofList : List Token → TokenStream
  | [] => ⟨⟨.eof, "", 1, 1⟩, []⟩
  | t :: ts => ⟨t, ts⟩

/-- The stream after its first token. The last token stays. -/
def advance (s : TokenStream) : TokenStream :=
  match s.rest with
  | [] => s
  | t :: ts => ⟨t, ts⟩

end TokenStream

abbrev Parse := EStateM ParseError TokenStream

namespace Parse

variable (file : Option String)

def current : Parse Token := do
  return (← get).current

def kind : Parse TokenKind := do
  return (← get).current.kind

def advance : Parse Unit :=
  modify TokenStream.advance

def here : Parse Loc := do
  return (← get).current.loc file

def fail {α : Type} (cause : ParseCause) : Parse α := do
  throw ⟨cause, ← here file⟩

def expect (k : TokenKind) : Parse Token := do
  let t ← current
  if t.kind = k then
    advance
    return t
  else fail file (.expected k t.found)

def consume (k : TokenKind) : Parse Bool := do
  if (← kind) = k then
    advance
    return true
  else return false

def logicOp? : TokenKind → Option BinOp
  | .andWord => some (.logic .and)
  | .orWord => some (.logic .or)
  | _ => none

def relOp? : TokenKind → Option BinOp
  | .lt => some (.rel .lt)
  | .le => some (.rel .le)
  | .gt => some (.rel .gt)
  | .ge => some (.rel .ge)
  | .eq => some (.rel .eq)
  | .ne => some (.rel .ne)
  | _ => none

def sumOp? : TokenKind → Option BinOp
  | .plus => some (.arith .add)
  | .minus => some (.arith .sub)
  | _ => none

def productOp? : TokenKind → Option BinOp
  | .star => some (.arith .mul)
  | .slash => some (.arith .div)
  | .modWord => some (.arith .mod)
  | .concat => some .concat
  | _ => none

mutual

def expression : Nat → Parse Expr
  | 0 => fail file (.broken .endless)
  | n + 1 => do
    let loc ← here file
    match ← kind with
    | .letWord =>
      advance
      let name ← expect file .ident
      let _ ← expect file .assign
      let value ← expression n
      let _ ← expect file .inWord
      let body ← expression n
      return .letIn name.text value body loc
    | .ifWord =>
      advance
      let test ← expression n
      let _ ← expect file .thenWord
      let yes ← expression n
      let _ ← expect file .elseWord
      let no ← expression n
      return .cond test yes no loc
    | .fnWord =>
      advance
      let param ← expect file .ident
      let _ ← expect file .arrow
      let body ← expression n
      return .lambda param.text body loc
    | _ => logical n

def logical : Nat → Parse Expr
  | 0 => fail file (.broken .endless)
  | n + 1 => do
    let left ← relational n
    logicalRest n left

/-- Reads further comparisons joined to an expression. -/
def logicalRest : Nat → Expr → Parse Expr
  | 0, _ => fail file (.broken .endless)
  | n + 1, left => do
    match logicOp? (← kind) with
    | none => return left
    | some op =>
      let loc ← here file
      advance
      let right ← relational n
      logicalRest n (.binary op left right loc)

def relational : Nat → Parse Expr
  | 0 => fail file (.broken .endless)
  | n + 1 => do
    let left ← additive n
    match relOp? (← kind) with
    | none => return left
    | some op =>
      let loc ← here file
      advance
      let right ← additive n
      return .binary op left right loc

def additive : Nat → Parse Expr
  | 0 => fail file (.broken .endless)
  | n + 1 => do
    let left ← product n
    additiveRest n left

def additiveRest : Nat → Expr → Parse Expr
  | 0, _ => fail file (.broken .endless)
  | n + 1, left => do
    match sumOp? (← kind) with
    | none => return left
    | some op =>
      let loc ← here file
      advance
      let right ← product n
      additiveRest n (.binary op left right loc)

/-- Reads a product, or a negated comparison. -/
def product : Nat → Parse Expr
  | 0 => fail file (.broken .endless)
  | n + 1 => do
    match ← kind with
    | .notWord =>
      let loc ← here file
      advance
      let operand ← relational n
      return .unary .not operand loc
    | _ =>
      let left ← factor n
      productRest n left

def productRest : Nat → Expr → Parse Expr
  | 0, _ => fail file (.broken .endless)
  | n + 1, left => do
    match productOp? (← kind) with
    | none => return left
    | some op =>
      let loc ← here file
      advance
      let right ← factor n
      productRest n (.binary op left right loc)

/-- Reads a factor: a negated factor, a built-in function with its arguments, a list, a constant, or
a name or an expression in brackets with what it is applied to. -/
def factor : Nat → Parse Expr
  | 0 => fail file (.broken .endless)
  | n + 1 => do
    let token ← current
    let loc := token.loc file
    match token.kind with
    | .minus =>
      advance
      let operand ← factor n
      return .unary .neg operand loc
    | .hdWord =>
      let arg ← argument n
      return .head arg loc
    | .tlWord =>
      let arg ← argument n
      return .tail arg loc
    | .lenWord =>
      let arg ← argument n
      return .length arg loc
    | .mapWord =>
      advance
      let _ ← expect file .lparen
      let function ← expression n
      let list ← expression n
      let _ ← expect file .rparen
      return .map function list loc
    | .foldlWord => folded n .left loc
    | .foldrWord => folded n .right loc
    | .lbracket =>
      advance
      if ← consume .rbracket then return .list [] loc
      else
        let first ← expression n
        let rest ← elements n
        let _ ← expect file .rbracket
        return .list (first :: rest) loc
    | .lparen =>
      advance
      let inner ← expression n
      let _ ← expect file .rparen
      applications n inner
    | .int =>
      match Text.readInt token.text with
      | .ok i =>
        advance
        return .literal (.int i) loc
      | .error .malformed => fail file (.broken (.badInt token.text))
      | .error (.tooLong digits) => fail file (.broken (.longInt digits))
    | .real =>
      match Text.readReal? token.text with
      | some x =>
        advance
        return .literal (.real x) loc
      | none => fail file (.broken (.badReal token.text))
    | .bool =>
      advance
      return .literal (.bool (token.text == "true")) loc
    | .ident =>
      advance
      applications n (.ident token.text loc)
    | _ => fail file (.unexpected token.found)

def argument : Nat → Parse Expr
  | 0 => fail file (.broken .endless)
  | n + 1 => do
    advance
    let _ ← expect file .lparen
    let arg ← expression n
    let _ ← expect file .rparen
    return arg

def folded : Nat → Side → Loc → Parse Expr
  | 0, _, _ => fail file (.broken .endless)
  | n + 1, side, loc => do
    advance
    let _ ← expect file .lparen
    let function ← expression n
    let initial ← expression n
    let list ← expression n
    let _ ← expect file .rparen
    return .fold side function initial list loc

/-- Reads further elements of a list, each after a comma. -/
def elements : Nat → Parse (List Expr)
  | 0 => fail file (.broken .endless)
  | n + 1 => do
    if ← consume .comma then
      let first ← expression n
      let rest ← elements n
      return first :: rest
    else return []

def applications : Nat → Expr → Parse Expr
  | 0, _ => fail file (.broken .endless)
  | n + 1, function => do
    match ← kind with
    | .lparen =>
      let loc ← here file
      advance
      let arg ← expression n
      let _ ← expect file .rparen
      applications n (.apply function arg loc)
    | _ => return function

end

/-- Reads a statement: a definition or an expression. A definition may name a parameter before the
sign of definition, which stands for a function. -/
def statement (fuel : Nat) : Parse Expr := do
  match ← kind with
  | .valWord =>
    let loc ← here file
    advance
    let name ← expect file .ident
    let next ← current
    match next.kind with
    | .ident =>
      advance
      let _ ← expect file .assign
      let body ← expression file fuel
      return .val name.text (.lambda next.text body (some (next.loc file))) loc
    | _ =>
      let _ ← expect file .assign
      let value ← expression file fuel
      return .val name.text value loc
  | _ => expression file fuel

/-- Reads statements up to the end of the text, if there are fewer than `n`. -/
def statements (fuel : Nat) : Nat → Parse (List Expr)
  | 0 => fail file (.broken .endless)
  | n + 1 => do
    match ← kind with
    | .eof => return []
    | _ =>
      let first ← statement file fuel
      let _ ← expect file .semicolon
      let rest ← statements fuel n
      return first :: rest

def program (fuel : Nat) : Parse Program := do
  let loc ← here file
  let all ← statements file fuel fuel
  return ⟨all, loc⟩

end Parse

namespace Program

/-- The fuel to read so many tokens: a nested expression takes at most seven calls. -/
def fuelFor (tokens : List Token) : Nat :=
  8 * (tokens.length + 1)

def ofTokens (tokens : List Token) (file : Option String) : Except ParseError Program :=
  match Parse.program file (fuelFor tokens) (TokenStream.ofList tokens) with
  | .ok p _ => .ok p
  | .error e _ => .error e

end Program

end Minifun
