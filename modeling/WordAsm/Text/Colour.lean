/-
# Terminal colours

Listings and diagnostics carry the escape sequences of a terminal. A colour is
closed by restoring the default foreground, bold and underline by switching
themselves off.
-/

namespace WordAsm

inductive Colour
  | red
  | green
  | yellow
  | blue
  deriving DecidableEq

namespace Colour

def openCode : Colour → String
  | red => "\x1b[31m"
  | green => "\x1b[32m"
  | yellow => "\x1b[33m"
  | blue => "\x1b[34m"

def closeCode : String := "\x1b[39m"

def paint (c : Colour) (text : String) : String :=
  c.openCode ++ text ++ closeCode

def paintBold (c : Colour) (text : String) : String :=
  c.openCode ++ "\x1b[1m" ++ text ++ closeCode ++ "\x1b[22m"

end Colour

def underline (text : String) : String := "\x1b[4m" ++ text ++ "\x1b[24m"

end WordAsm
