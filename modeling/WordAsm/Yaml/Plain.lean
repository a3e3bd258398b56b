/-
# Plain scalars

A scalar without quotes ends where something else can begin: at a colon or a
comment behind a word, at a line that is not indented enough, and between
brackets at every mark of their own.
-/
import WordAsm.Yaml.Cell
import WordAsm.Yaml.Gap

namespace WordAsm.Yaml

/-- Characters that begin something else than a plain scalar. -/
def isIndicator (c : Char) : Bool := "-?:,[]\x7b\x7d#&*!|>'\"%@\x60".toList.contains c

/-- Characters that end a plain scalar between brackets. -/
def isBracketMark (c : Char) : Bool := ",[]\x7b\x7d".toList.contains c

/-- Whether a plain scalar starts with `c`, where `next` follows. -/
def startsPlain (isFlow : Bool) (c next : Char) : Bool :=
  (!endsWord c && !isIndicator c) || (c = '-' && !isGap next)
    || (!isFlow && (c = '?' || c = ':') && !endsWord next)

structure PlainScalar where
  text : List Char
  /-- Whether lines ended behind the last word. -/
  isBroken : Bool
  rest : List Cell

/-- Goes on reading a plain scalar whose lines are indented by `indent`; `text`
has been read so far, last character first. -/
def takePlain? (isFlow : Bool) (indent : Nat) (text : List Char) (gap : Gap) :
    List Cell → Option PlainScalar
  | [] => none
  | c :: rest =>
    let here := c :: rest
    let isNewWord := !gap.isEmpty
    if isGap c.char || isBreak c.char then
      if gap.isBroken && c.char = '\t' && c.column < indent then none
      else takePlain? isFlow indent text (gap.add c.char) rest
    else if isEnd c.char
        || (isNewWord && ((!isFlow && c.column < indent) || c.char = '#' || isAtMark here)) then
      some ⟨text.reverse, gap.isBroken, here⟩
    else if isFlow && c.char = ':' && (isBracketMark (nextChar rest) || nextChar rest = '?') then
      none
    else if (c.char = ':' && endsWord (nextChar rest)) || (isFlow && isBracketMark c.char) then
      some ⟨text.reverse, gap.isBroken, here⟩
    else takePlain? isFlow indent (c.char :: (gap.text.reverse ++ text)) {} rest

end WordAsm.Yaml
