/-
# Text by lines and columns

YAML is read by where things stand, so a text is first laid out in cells: each
character with its line and column, all ways to break a line made one, and a
cell for the end behind them.
-/
import WordAsm.Yaml.Character

namespace WordAsm.Yaml

structure Cell where
  char : Char
  line : Nat
  column : Nat
  deriving DecidableEq

def lineBreak (c : Char) : Char := if c = '\r' || c.toNat = 0x85 then '\n' else c

def cellsFrom? (line column : Nat) : List Char → Option (List Cell)
  | [] => some [⟨endMark, line, column⟩]
  | '\r' :: '\n' :: rest => (cellsFrom? (line + 1) 0 rest).map (⟨'\n', line, column⟩ :: ·)
  | c :: rest =>
    if !isAllowed c then none
    else if isBreak c then
      (cellsFrom? (line + 1) 0 rest).map (⟨lineBreak c, line, column⟩ :: ·)
    else (cellsFrom? line (column + 1) rest).map (⟨c, line, column⟩ :: ·)

/-- The cells of a text that holds nothing but allowed characters. -/
def cells? (text : String) : Option (List Cell) := cellsFrom? 0 0 text.toList

def nextChar : List Cell → Char
  | [] => endMark
  | c :: _ => c.char

/-- Whether a line starts with three times `mark` and nothing right behind. -/
def isDocumentMark (mark : Char) : List Cell → Bool
  | a :: b :: c :: rest =>
    a.column = 0 && a.char = mark && b.char = mark && c.char = mark && endsWord (nextChar rest)
  | _ => false

/-- Whether a document starts or ends here. -/
def isAtMark (cells : List Cell) : Bool := isDocumentMark '-' cells || isDocumentMark '.' cells

def skipGaps (cells : List Cell) : List Cell := cells.dropWhile fun c => isGap c.char

/-- What comes behind the line, of which only gaps and a comment may be left. -/
def restOfLine? (cells : List Cell) : Option (List Cell) :=
  let rest := skipGaps cells
  let rest :=
    if nextChar rest = '#' then rest.dropWhile fun c => !isBreak c.char && !isEnd c.char
    else rest
  match rest with
  | [] => none
  | c :: more => if isBreak c.char then some more else if isEnd c.char then some rest else none

/-- The word that comes next, and what follows it. -/
def takeWord (cells : List Cell) : List Char × List Cell :=
  ((cells.takeWhile fun c => isWord c.char).map Cell.char, cells.dropWhile fun c => isWord c.char)

end WordAsm.Yaml
