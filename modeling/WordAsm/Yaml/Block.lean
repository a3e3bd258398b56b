/-
# Scalars in lines of their own

Behind a bar or an angle bracket a scalar is written in the lines below, which
have one indentation: the one that is given, or that of the first line with
text. A header may also say what becomes of the breaks at its end.
-/
import WordAsm.Source.Number
import WordAsm.Yaml.Cell

namespace WordAsm.Yaml

/-- What becomes of the breaks behind the last line with text. -/
inductive Chomping
  | strip
  /-- One of them stays. -/
  | clip
  | keep
  deriving DecidableEq

structure BlockHeader where
  chomping : Chomping := .clip
  /-- By how much the lines are indented further than what is around them. -/
  extra : Option Nat := none
  deriving DecidableEq

def chomping? (c : Char) : Option Chomping := [('-', .strip), ('+', .keep)].lookup c

def extra? (c : Char) : Option Nat := (digitValue? c).filter (· < 10)

/-- Reads what may stand behind the bar or bracket, in either order, and the
rest of its line. -/
def blockHeader? (cells : List Cell) : Option (BlockHeader × List Cell) := do
  let front := nextChar cells
  let back := nextChar (cells.drop 1)
  let (header, width) : BlockHeader × Nat :=
    match chomping? front, extra? front with
    | some chomping, _ =>
      match extra? back with
      | some n => ({ chomping, extra := some n }, 2)
      | none => ({ chomping }, 1)
    | none, some n =>
      match chomping? back with
      | some chomping => ({ chomping, extra := some n }, 2)
      | none => ({ extra := some n }, 1)
    | none, none => ({}, 0)
  if header.extra = some 0 then none
  else return (header, ← restOfLine? (cells.drop width))

/-- What has been read of the lines. -/
structure BlockText where
  /-- The text so far, last character first. -/
  text : List Char := []
  /-- The break behind the last line with text. -/
  ending : List Char := []
  /-- The breaks behind that one. -/
  more : List Char := []
  /-- Whether the last line with text starts with a blank. -/
  startsBlank : Bool := false
  /-- The indentation, once it is known. -/
  indent : Option Nat
  /-- The widest indentation of a line without text. -/
  widest : Nat := 0
  deriving DecidableEq

namespace BlockText

/-- The breaks between the last line and one that starts with `c`, as they are
read: if lines are folded, as in other scalars, but only between lines that do
not start with a blank. -/
def between (b : BlockText) (isFolded : Bool) (c : Char) : List Char :=
  if isFolded && b.ending = ['\n'] && !b.startsBlank && !isGap c then
    if b.more.isEmpty then [' '] else b.more
  else b.ending ++ b.more

def startLine (b : BlockText) (isFolded : Bool) (c : Char) : BlockText :=
  { b with
    text := c :: ((b.between isFolded c).reverse ++ b.text), ending := [], more := [],
    startsBlank := isGap c }

/-- The whole scalar. -/
def chomp (b : BlockText) (chomping : Chomping) : List Char :=
  b.text.reverse ++
    match chomping with
    | .strip => []
    | .clip => b.ending
    | .keep => b.ending ++ b.more

end BlockText

/-- Reads lines that are indented by `least` at least; `inLine` says that a
line has begun. -/
def takeLines? (isFolded : Bool) (least : Nat) (inLine : Bool) (b : BlockText) :
    List Cell → Option (BlockText × List Cell)
  | [] => none
  | c :: rest =>
    if inLine then
      if isEnd c.char then some (b, c :: rest)
      else if isBreak c.char then
        takeLines? isFolded least false { b with ending := [c.char] } rest
      else takeLines? isFolded least true { b with text := c.char :: b.text } rest
    else
      let isOutside := b.indent.all (c.column < ·)
      if isOutside && c.char = ' ' then takeLines? isFolded least false b rest
      else if isOutside && c.char = '\t' then none
      else
        let widest := max b.widest c.column
        if isBreak c.char then
          takeLines? isFolded least false { b with more := b.more ++ [c.char], widest } rest
        else
          let indent := b.indent.getD (max widest (max least 1))
          if c.column = indent && !isEnd c.char then
            takeLines? isFolded least true
              (({ b with indent := some indent }).startLine isFolded c.char) rest
          else some (b, c :: rest)

/-- Reads a scalar in lines of its own from its header on; `around` is the
indentation of what is around it. -/
def takeBlock? (isFolded : Bool) (around : Option Nat) (cells : List Cell) :
    Option (List Char × List Cell) := do
  let (header, rest) ← blockHeader? cells
  let indent := header.extra.map (around.getD 0 + ·)
  let least := around.elim 0 (· + 1)
  let (b, rest) ← takeLines? isFolded least false { indent } rest
  return (b.chomp header.chomping, rest)

end WordAsm.Yaml
