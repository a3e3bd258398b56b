/-
# From text to tokens

Each token is told by the character it starts with and the one behind that,
and then read to its end.
-/
import WordAsm.Yaml.Block
import WordAsm.Yaml.Outline
import WordAsm.Yaml.Plain

namespace WordAsm.Yaml

/-- Passes over what is between tokens, in a comment or not. Outside brackets a
key may start on every new line, and where one may start a tab may not stand. -/
def skipToToken (isFlow mayKey inComment : Bool) : List Cell → Bool × List Cell
  | [] => (mayKey, [])
  | c :: rest =>
    if isBreak c.char then skipToToken isFlow (mayKey || !isFlow) false rest
    else if isEnd c.char then (mayKey, c :: rest)
    else if inComment || c.char = '#' then skipToToken isFlow mayKey true rest
    else if c.char = ' ' || (c.char = '\t' && (isFlow || !mayKey))
        || (c.char.toNat = 0xFEFF && c.column = 0) then
      skipToToken isFlow mayKey false rest
    else (mayKey, c :: rest)

namespace Outline

/-- Reads a scalar in lines of its own. -/
def takeBlock? (o : Outline) (form : Form) (rest : List Cell) : Option (Outline × List Cell) := do
  let o ← o.dropKey?
  let (text, rest) ← Yaml.takeBlock? (form = .folded) o.indents.head? rest
  return ({ o with mayKey := true }.push (.scalar form (String.ofList text)), rest)

def takeQuoted? (o : Outline) (c : Cell) (rest : List Cell) : Option (Outline × List Cell) := do
  let (text, rest) ← Yaml.takeQuoted? (c.char = '"') .start [] {} rest
  return (← o.keyToken? c (.scalar .quoted (String.ofList text)), rest)

def takePlain? (o : Outline) (c : Cell) (rest : List Cell) : Option (Outline × List Cell) := do
  let indent := o.indents.head?.elim 0 (· + 1)
  let s ← Yaml.takePlain? o.isFlow indent [] {} (c :: rest)
  let o ← o.keyToken? c (.scalar .plain (String.ofList s.text))
  return ({ o with mayKey := o.mayKey || s.isBroken }, s.rest)

def takeTag? (o : Outline) (c : Cell) (rest : List Cell) : Option (Outline × List Cell) := do
  let (tag, rest) ← Yaml.takeTag? o.isFlow rest
  return (← o.keyToken? c (.tag tag), rest)

def takeName? (o : Outline) (c : Cell) (token : String → Token) (rest : List Cell) :
    Option (Outline × List Cell) := do
  let (name, rest) ← Yaml.takeName? rest
  return (← o.keyToken? c (token name), rest)

def take? (o : Outline) (c : Cell) (rest : List Cell) : Option (Outline × List Cell) :=
  let mark (o : Option Outline) (rest : List Cell) := o.map (·, rest)
  let endsMark := endsWord (nextChar rest)
  if c.column = 0 && c.char = '%' then do
    let (directive, rest) ← takeDirective? rest
    return (← o.documentToken? (.directive directive), rest)
  else if isDocumentMark '-' (c :: rest) then mark (o.documentToken? .documentStart) (rest.drop 2)
  else if isDocumentMark '.' (c :: rest) then mark (o.documentToken? .documentEnd) (rest.drop 2)
  else if c.char = '[' then mark (o.openFlow? c .flowSequenceStart) rest
  else if c.char = '\x7b' then mark (o.openFlow? c .flowMappingStart) rest
  else if c.char = ']' then mark (o.closeFlow? .flowSequenceEnd) rest
  else if c.char = '\x7d' then mark (o.closeFlow? .flowMappingEnd) rest
  else if c.char = ',' then mark o.flowEntry? rest
  else if c.char = '-' && endsMark then mark (o.blockEntry? c) rest
  else if c.char = '?' && (o.isFlow || endsMark) then mark (o.markedKey? c) rest
  else if c.char = ':' && (o.isFlow || endsMark) then mark (o.value? c) rest
  else if c.char = '*' then o.takeName? c .reference rest
  else if c.char = '&' then o.takeName? c .anchor rest
  else if c.char = '!' then o.takeTag? c rest
  else if c.char = '|' && !o.isFlow then o.takeBlock? .literal rest
  else if c.char = '>' && !o.isFlow then o.takeBlock? .folded rest
  else if c.char = '\'' || c.char = '"' then o.takeQuoted? c rest
  else if startsPlain o.isFlow c.char (nextChar rest) then o.takePlain? c rest
  else none

def finish? (o : Outline) (fuel : Nat) (cells : List Cell) : Option (List Token) :=
  match fuel with
  | 0 => none
  | fuel + 1 =>
    match skipToToken o.isFlow o.mayKey false cells with
    | (_, []) => none
    | (mayKey, c :: rest) => do
      let o ← { o with mayKey }.expire? c
      let o := o.unroll (c.column < ·)
      if isEnd c.char then return (← o.unrollAll.dropKey?).tokens.toList
      else
        let (o, rest) ← o.take? c rest
        o.finish? fuel rest

end Outline

/-- The tokens of a text. Each uses up a cell, and the end is one more. -/
def tokens? (text : String) : Option (List Token) := do
  let cells ← cells? text
  ({} : Outline).finish? cells.length cells

end WordAsm.Yaml
