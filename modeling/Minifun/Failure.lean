import Minifun.Eval.Fault
import Minifun.Program.Parser
import Minifun.Typing.Infer

/-! # Failures

All that can go wrong with a program. Errors of the language have a diagnostic, and breakdowns have
none.
-/

namespace Minifun

inductive Failure where
  | lexical (e : LexError)
  | parsing (e : ParseError)
  | typing (e : TypeError)
  | evaluation (e : EvalError)
  | breakdown (b : Breakdown)
deriving DecidableEq, Repr, Inhabited

namespace LexError

def message (e : LexError) : String :=
  match e.cause with
  | .unexpected c => "Unexpected character '" ++ String.singleton c ++ "'"
  | .unterminatedComment => "Unterminated comment"

def diagnostic (e : LexError) : Diagnostic :=
  { stage := .lexing, message := e.message, kind := some .unexpectedCharacter, loc := some e.loc }

end LexError

namespace ParseError

def failure (e : ParseError) : Failure :=
  match e.cause with
  | .broken b => .breakdown b
  | _ => .parsing e

def message (e : ParseError) : String :=
  match e.cause with
  | .expected kind found => "Expected " ++ kind.label ++ ", got '" ++ found ++ "'"
  | .unexpected found => "Unexpected token '" ++ found ++ "'"
  | .broken b => b.message

def diagnostic (e : ParseError) : Diagnostic :=
  { stage := .parsing, message := e.message, kind := some .unexpectedToken, loc := some e.loc }

end ParseError

namespace TypeError

def diagnostic (e : TypeError) : Diagnostic :=
  match e.cause with
  | .unbound name similar =>
    { stage := .typing, message := "Unbound identifier: " ++ name, kind := some .unknownVariable,
      loc := e.loc, similar := similar }
  | .clash label clash =>
    { stage := .typing
      message := "Unification error: " ++ label
      kind := some (match clash.kind with
        | .mismatch => .typeMismatch
        | .infinite => .infiniteType)
      loc := e.loc
      expected := some clash.expected.describe
      actual := some clash.actual.describe }
  | .unknownLiteral text =>
    { stage := .typing, message := "Unknown literal " ++ text, kind := some .typeMismatch,
      loc := e.loc }
  | .unknownOperator symbol =>
    { stage := .typing, message := "Unknown operator '" ++ symbol ++ "'",
      kind := some .typeMismatch, loc := e.loc }

end TypeError

namespace EvalError

def diagnostic (e : EvalError) : Diagnostic :=
  { stage := .evaluation, message := e.cause.message, kind := e.cause.kind, loc := e.loc,
    similar := e.cause.similar }

end EvalError

def Stop.failure : Stop → Failure
  | .error e => .evaluation e
  | .outOfDepth => .breakdown .outOfDepth
  | .broken b => .breakdown b

namespace Failure

/-- The diagnostic of a failure that is an error of the language, and else the breakdown. -/
def diagnose : Failure → Except Breakdown Diagnostic
  | lexical e => .ok e.diagnostic
  | parsing e => .ok e.diagnostic
  | typing e => .ok e.diagnostic
  | evaluation e => .ok e.diagnostic
  | breakdown b => .error b

end Failure

end Minifun
