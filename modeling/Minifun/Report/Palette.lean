/-! # Colours

Parts of a report are painted with escape codes of the terminal. When colours are off every code is
empty, so that painting changes nothing else.
-/

namespace Minifun

inductive Ink where
  | bold | dim | red | green | yellow | blue | magenta | cyan | brightBlue
deriving DecidableEq, Repr, Inhabited

inductive Palette where
  | plain
  | coloured
deriving DecidableEq, Repr, Inhabited

def Ink.code : Ink → String
  | .bold => "\x1b[1m"
  | .dim => "\x1b[2m"
  | .red => "\x1b[31m"
  | .green => "\x1b[32m"
  | .yellow => "\x1b[33m"
  | .blue => "\x1b[34m"
  | .magenta => "\x1b[35m"
  | .cyan => "\x1b[36m"
  | .brightBlue => "\x1b[94m"

namespace Palette

def resetCode : String := "\x1b[0m"

def paint (p : Palette) (ink : Ink) (text : String) : String :=
  match p with
  | plain => text
  | coloured => ink.code ++ text ++ resetCode

def success (p : Palette) (text : String) : String :=
  p.paint .green "✓" ++ " " ++ text

def failure (p : Palette) (text : String) : String :=
  p.paint .red "✗" ++ " " ++ text

def warning (p : Palette) (text : String) : String :=
  p.paint .yellow "⚠" ++ " " ++ text

def hint (p : Palette) (text : String) : String := p.paint .blue text

def bold (p : Palette) (text : String) : String := p.paint .bold text

def dim (p : Palette) (text : String) : String := p.paint .dim text

def keyword (p : Palette) (text : String) : String := p.paint .magenta text

def typeName (p : Palette) (text : String) : String := p.paint .cyan text

def varName (p : Palette) (text : String) : String := p.paint .yellow text

def value (p : Palette) (text : String) : String := p.paint .green text

def prompt (p : Palette) (text : String) : String := p.paint .brightBlue text

/-- The palette for a terminal: coloured if output goes to one, it is not a dumb one, and the
environment does not ask for no colours. -/
def forTerminal (isTerminal : Bool) (term noColor : Option String) : Palette :=
  if isTerminal && term != some "dumb" && noColor.isNone then .coloured else .plain

end Palette

end Minifun
