/-
# Lines of a text

A text is cut behind every line feed, so that the pieces concatenate to the
text. Two readings of a piece are in use: the assembler drops every line feed
and carriage return at its end, reports drop one line end only.
-/

namespace WordAsm

/-- Cuts behind each line feed. -/
def splitLines (cs : List Char) : List (List Char) :=
  match _h : cs.dropWhile (· != '\n') with
  | [] => if cs.isEmpty then [] else [cs]
  | c :: rest => (cs.takeWhile (· != '\n') ++ [c]) :: splitLines rest
termination_by cs.length
decreasing_by
  have hle := (List.dropWhile_suffix (l := cs) (· != '\n')).length_le
  rw [_h, List.length_cons] at hle
  omega

/-- The number of bytes of a text in UTF-8. -/
def utf8Length (cs : List Char) : Nat := cs.foldr (fun c n => c.utf8Size + n) 0

/-- A line of source with its number and the byte offset at which it starts. -/
structure SourceLine where
  index : Nat
  offset : Nat
  text : List Char
  deriving DecidableEq

def isLineEnd (c : Char) : Bool := c == '\n' || c == '\r'

/-- A piece without any line feed or carriage return at its end. -/
def stripLineEnds (piece : List Char) : List Char :=
  (piece.reverse.dropWhile isLineEnd).reverse

/-- Numbers the pieces from `index` on, the first at byte `offset`. -/
def numberLines (index offset : Nat) : List (List Char) → List SourceLine
  | [] => []
  | piece :: rest =>
    ⟨index, offset, stripLineEnds piece⟩ :: numberLines (index + 1) (offset + utf8Length piece) rest

def sourceLines (text : String) : List SourceLine :=
  numberLines 0 0 (splitLines text.toList)

/-- A piece without its line feed, and without a carriage return before that. -/
def stripOneLineEnd (piece : List Char) : List Char :=
  match piece.reverse with
  | '\n' :: '\r' :: rest => rest.reverse
  | '\n' :: rest => rest.reverse
  | _ => piece

def reportLines (text : String) : List String :=
  (splitLines text.toList).map fun piece => String.ofList (stripOneLineEnd piece)

end WordAsm
