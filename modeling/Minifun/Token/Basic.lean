import Minifun.Loc
import Minifun.Text.Quoted

/-! # Tokens

The words of the language, with the text they were read from and the place where it begins.
-/

namespace Minifun

inductive TokenKind where
  | int | real | bool | ident
  | valWord | letWord | inWord | ifWord | thenWord | elseWord | fnWord
  | mapWord | foldlWord | foldrWord | lenWord | hdWord | tlWord
  | andWord | orWord | notWord | modWord
  | plus | minus | star | slash | concat
  | lparen | rparen | lbracket | rbracket | comma | semicolon
  | assign | arrow | eq | ne | lt | le | gt | ge
  | eof
deriving DecidableEq, Repr, Inhabited

namespace TokenKind

def label : TokenKind → String
  | int => "INT"
  | real => "REAL"
  | bool => "BOOL"
  | ident => "IDENT"
  | valWord => "VAL"
  | letWord => "LET"
  | inWord => "IN"
  | ifWord => "IF"
  | thenWord => "THEN"
  | elseWord => "ELSE"
  | fnWord => "FN"
  | mapWord => "MAP"
  | foldlWord => "FOLDL"
  | foldrWord => "FOLDR"
  | lenWord => "LEN"
  | hdWord => "HD"
  | tlWord => "TL"
  | andWord => "AND"
  | orWord => "OR"
  | notWord => "NOT"
  | modWord => "MOD"
  | plus => "PLUS"
  | minus => "MINUS"
  | star => "STAR"
  | slash => "SLASH"
  | concat => "CONCAT"
  | lparen => "LPAREN"
  | rparen => "RPAREN"
  | lbracket => "LBRACKET"
  | rbracket => "RBRACKET"
  | comma => "COMMA"
  | semicolon => "SEMICOLON"
  | assign => "ASSIGN"
  | arrow => "ARROW"
  | eq => "EQ"
  | ne => "NE"
  | lt => "LT"
  | le => "LE"
  | gt => "GT"
  | ge => "GE"
  | eof => "EOF"

def all : List TokenKind :=
  [int, real, bool, ident, valWord, letWord, inWord, ifWord, thenWord, elseWord, fnWord, mapWord,
    foldlWord, foldrWord, lenWord, hdWord, tlWord, andWord, orWord, notWord, modWord, plus, minus,
    star, slash, concat, lparen, rparen, lbracket, rbracket, comma, semicolon, assign, arrow, eq,
    ne, lt, le, gt, ge, eof]

def ofLabel? (label : String) : Option TokenKind :=
  all.find? fun k => k.label == label

end TokenKind

structure Token where
  kind : TokenKind
  text : String
  line : Int
  column : Int
deriving DecidableEq, Repr, Inhabited

namespace Token

def loc (t : Token) (file : Option String) : Loc :=
  ⟨t.line, t.column, file⟩

/-- How a token is named in a report: by its text, or by its kind if it has none. -/
def found (t : Token) : String :=
  if t.text = "" then t.kind.label else t.text

def describe (t : Token) : String :=
  "Token(" ++ t.kind.label ++ ", " ++ Text.quote t.text ++ ", " ++ toString t.line ++ ", " ++
    toString t.column ++ ")"

end Token

def keywords : List (String × TokenKind) :=
  [("val", .valWord), ("let", .letWord), ("in", .inWord), ("if", .ifWord), ("then", .thenWord),
    ("else", .elseWord), ("fn", .fnWord), ("map", .mapWord), ("foldl", .foldlWord),
    ("foldr", .foldrWord), ("len", .lenWord), ("hd", .hdWord), ("tl", .tlWord), ("and", .andWord),
    ("or", .orWord), ("not", .notWord), ("mod", .modWord), ("true", .bool), ("false", .bool)]

end Minifun
