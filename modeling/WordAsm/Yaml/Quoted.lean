/-
# Scalars in quotes

Between single quotes a quote is written twice, and nothing else is special.
Between double quotes a backslash starts an escape; before the end of a line it
takes the break back.
-/
import WordAsm.Source.Number
import WordAsm.Yaml.Cell
import WordAsm.Yaml.Gap

namespace WordAsm.Yaml

/-- How far the reading of a character between quotes has come. -/
inductive QuoteMode
  | start
  /-- Behind a single quote. -/
  | quote
  /-- Behind a backslash. -/
  | escape
  /-- In an escape that `left + 1` more digits of base 16 belong to. -/
  | code (left value : Nat)
  deriving DecidableEq

/-- The character that one character behind a backslash stands for. -/
def escaped? (c : Char) : Option Char :=
  let table := [('0', 0), ('a', 7), ('b', 8), ('t', 9), ('\t', 9), ('n', 10), ('v', 11), ('f', 12),
    ('r', 13), ('e', 27), (' ', 32), ('"', 34), ('/', 47), ('\\', 92), ('N', 0x85), ('_', 0xA0),
    ('L', 0x2028), ('P', 0x2029)]
  (table.lookup c).map Char.ofNat

/-- The mode behind a letter that announces digits. -/
def codeMode? (c : Char) : Option QuoteMode :=
  ([('x', 2), ('u', 4), ('U', 8)].lookup c).map fun width => .code (width - 1) 0

def hexDigit? (c : Char) : Option Nat := (digitValue? c).filter (· < 16)

/-- The character of a number, unless that is a surrogate or beyond the last. -/
def character? (n : Nat) : Option Char := if n.isValidChar then some (Char.ofNat n) else none

/-- Reads a scalar up to its closing quote; `text` has been read so far, last
character first. -/
def takeQuoted? (isDouble : Bool) (mode : QuoteMode) (text : List Char) (gap : Gap) :
    List Cell → Option (List Char × List Cell)
  | [] => none
  | c :: rest =>
    match mode with
    | .start =>
      let sofar := gap.text.reverse ++ text
      if isEnd c.char || isAtMark (c :: rest) then none
      else if isGap c.char || isBreak c.char then
        takeQuoted? isDouble .start text (gap.add c.char) rest
      else if isDouble && c.char = '"' then some (sofar.reverse, rest)
      else if isDouble && c.char = '\\' then takeQuoted? isDouble .escape sofar {} rest
      else if !isDouble && c.char = '\'' then takeQuoted? isDouble .quote sofar {} rest
      else takeQuoted? isDouble .start (c.char :: sofar) {} rest
    | .quote =>
      if c.char = '\'' then takeQuoted? isDouble .start ('\'' :: text) {} rest
      else some (text.reverse, c :: rest)
    | .escape =>
      if isBreak c.char then takeQuoted? isDouble .start text .joined rest
      else
        match escaped? c.char, codeMode? c.char with
        | some e, _ => takeQuoted? isDouble .start (e :: text) {} rest
        | none, some mode => takeQuoted? isDouble mode text {} rest
        | none, none => none
    | .code left value =>
      match hexDigit? c.char with
      | none => none
      | some d =>
        let value := value * 16 + d
        match left with
        | left + 1 => takeQuoted? isDouble (.code left value) text {} rest
        | 0 =>
          match character? value with
          | some e => takeQuoted? isDouble .start (e :: text) {} rest
          | none => none

end WordAsm.Yaml
