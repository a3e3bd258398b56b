/-
# Places in a source text
-/

namespace WordAsm

/-- A stretch of source: byte offset in the text, line and column (in
characters) counted from zero, and length in bytes. -/
structure Location where
  offset : Nat
  line : Nat
  column : Nat
  length : Nat
  deriving DecidableEq

def Location.text (l : Location) : String := s!"{l.line + 1}:{l.column + 1}"

end WordAsm
