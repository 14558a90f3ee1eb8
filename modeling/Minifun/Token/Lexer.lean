import Minifun.Text.Digit
import Minifun.Token.Basic

/-! # From text to tokens

Blanks and comments separate tokens, and comments nest. A token is as long as it can be: a symbol
of two characters goes before one of a single character, and a point belongs to a number only if a
digit follows it.
-/

namespace Minifun

structure Cursor where
  line : Nat := 1
  column : Nat := 1
deriving DecidableEq, Repr, Inhabited

/-- The cursor after a character. Only a line feed begins a new line. -/
def Cursor.advance (p : Cursor) (c : Char) : Cursor :=
  if c = '\n' then ⟨p.line + 1, 1⟩ else ⟨p.line, p.column + 1⟩

def Cursor.advanceAll (p : Cursor) (cs : List Char) : Cursor :=
  cs.foldl advance p

inductive LexCause where
  | unexpected (c : Char)
  | unterminatedComment
deriving DecidableEq, Repr, Inhabited

structure LexError where
  cause : LexCause
  loc : Loc
deriving DecidableEq, Repr, Inhabited

namespace Token

def isSpace (c : Char) : Bool :=
  c = ' ' || c = '\t' || c = '\r' || c = '\n'

/-- Skips blanks and comments. `depth` is the number of comments that are open, and `opened` the
place where the outermost of them began, which is the error if it does not end. -/
def skip (depth : Nat) (opened p : Cursor) : List Char → Except Cursor (Cursor × List Char)
  | [] => if depth = 0 then .ok (p, []) else .error opened
  | [c] =>
    if depth = 0 then
      if isSpace c then .ok (p.advance c, []) else .ok (p, [c])
    else .error opened
  | c :: d :: cs =>
    if c = '(' && d = '*' then
      skip (depth + 1) (if depth = 0 then p else opened) ((p.advance c).advance d) cs
    else if depth = 0 then
      if isSpace c then skip 0 opened (p.advance c) (d :: cs) else .ok (p, c :: d :: cs)
    else if c = '*' && d = ')' then skip (depth - 1) opened ((p.advance c).advance d) cs
    else skip depth opened (p.advance c) (d :: cs)

def pairSymbol? (c d : Char) : Option TokenKind :=
  match c, d with
  | '+', '+' => some .concat
  | ':', '=' => some .assign
  | '-', '>' => some .arrow
  | '!', '=' => some .ne
  | '<', '=' => some .le
  | '>', '=' => some .ge
  | _, _ => none

def symbol? : Char → Option TokenKind
  | '+' => some .plus
  | '-' => some .minus
  | '*' => some .star
  | '/' => some .slash
  | '(' => some .lparen
  | ')' => some .rparen
  | '[' => some .lbracket
  | ']' => some .rbracket
  | ',' => some .comma
  | ';' => some .semicolon
  | '=' => some .eq
  | '<' => some .lt
  | '>' => some .gt
  | _ => none

def isWordStart (c : Char) : Bool :=
  Text.isLetter c || c = '_'

def isWordChar (c : Char) : Bool :=
  Text.isAlphanumeric c || c = '_'

def wordKind (word : List Char) : TokenKind :=
  (keywords.lookup (String.ofList word)).getD .ident

def number (cs : List Char) : TokenKind × List Char :=
  let whole := cs.takeWhile Text.isDigit
  match cs.dropWhile Text.isDigit with
  | '.' :: rest =>
    match rest.takeWhile Text.isDigit with
    | [] => (.int, whole)
    | places => (.real, whole ++ '.' :: places)
  | _ => (.int, whole)

def lexeme? : List Char → Option (TokenKind × List Char)
  | [] => none
  | c :: cs =>
    if Text.isDigit c then some (number (c :: cs))
    else if isWordStart c then
      let word := (c :: cs).takeWhile isWordChar
      some (wordKind word, word)
    else
      match cs with
      | [] => (symbol? c).map fun k => (k, [c])
      | d :: _ =>
        match pairSymbol? c d with
        | some k => some (k, [c, d])
        | none => (symbol? c).map fun k => (k, [c])

def placed (p : Cursor) (kind : TokenKind) (cs : List Char) : Token :=
  ⟨kind, String.ofList cs, p.line, p.column⟩

def lexFrom (file : Option String) : Nat → Cursor → List Char → Except LexError (List Token)
  | 0, p, _ => .ok [placed p .eof []]
  | n + 1, p, cs =>
    match skip 0 p p cs with
    | .error opened => .error ⟨.unterminatedComment, ⟨opened.line, opened.column, file⟩⟩
    | .ok (q, []) => .ok [placed q .eof []]
    | .ok (q, c :: rest) =>
      match lexeme? (c :: rest) with
      | none => .error ⟨.unexpected c, ⟨q.line, q.column, file⟩⟩
      | some (kind, word) =>
        match lexFrom file n (q.advanceAll word) ((c :: rest).drop word.length) with
        | .error e => .error e
        | .ok ts => .ok (placed q kind word :: ts)

/-- The tokens of a text, with the end of the text as the last one. Every token takes at least one
character, so the length of the text bounds their number. -/
def lex (source : String) (file : Option String) : Except LexError (List Token) :=
  let cs := source.toList
  lexFrom file (cs.length + 1) {} cs

end Token

end Minifun
