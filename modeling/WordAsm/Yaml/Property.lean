/-
# Anchors and tags

A node may be given a name, by which it can be repeated, and a tag, which says
what kind of thing it is. A tag is written in full, or with a handle in front
that stands for the start of many tags. Characters of a tag may be written as
octets in base 16.
-/
import WordAsm.Text.Utf8
import WordAsm.Yaml.Quoted

namespace WordAsm.Yaml

def takeName? (cells : List Cell) : Option (String × List Cell) :=
  let (word, rest) := takeWord cells
  let next := nextChar rest
  if !word.isEmpty && (endsWord next || "?:,]\x7d%@\x60".toList.contains next) then
    some (String.ofList word, rest)
  else none

/-- How far the reading of a character of a tag has come, which may be written
as several octets. -/
inductive UriMode
  | start
  /-- Before an octet of a character that `left` more belong to. -/
  | octet (left : Nat)
  /-- Behind a percent sign; `left` counts the octets from here on, if the
  first has been read. -/
  | high (left : Option Nat)
  /-- Behind the first digit of an octet. -/
  | low (left : Option Nat) (digit : Nat)
  deriving DecidableEq

def isUri (isWide : Bool) (c : Char) : Bool :=
  isWord c || ";/?:@&=+$.!~*'()".toList.contains c || (isWide && ",[]".toList.contains c)

/-- The number of octets of a character that starts with this one. -/
def octetWidth? (n : Nat) : Option Nat :=
  if n < 0x80 then some 1
  else if 0xC0 ≤ n && n < 0xE0 then some 2
  else if 0xE0 ≤ n && n < 0xF0 then some 3
  else if 0xF0 ≤ n && n < 0xF8 then some 4
  else none

/-- How many octets a character lacks behind this one. -/
def octetsLeft? (left : Option Nat) (n : Nat) : Option Nat :=
  match left with
  | none => (octetWidth? n).map (· - 1)
  | some left => if 0x80 ≤ n && n < 0xC0 then some (left - 1) else none

/-- Reads characters of a tag; `seen` has been read so far, last octet first. -/
def takeUri? (isWide : Bool) (mode : UriMode) (seen : Bytes) :
    List Cell → Option (Bytes × List Cell)
  | [] => none
  | c :: rest =>
    match mode with
    | .start =>
      if c.char = '%' then takeUri? isWide (.high none) seen rest
      else if isUri isWide c.char then takeUri? isWide .start (c.char.toUInt8 :: seen) rest
      else some (seen.reverse, c :: rest)
    | .octet left => if c.char = '%' then takeUri? isWide (.high (some left)) seen rest else none
    | .high left =>
      match hexDigit? c.char with
      | some d => takeUri? isWide (.low left d) seen rest
      | none => none
    | .low left d =>
      match hexDigit? c.char with
      | none => none
      | some e =>
        let n := d * 16 + e
        match octetsLeft? left n with
        | none => none
        | some 0 => takeUri? isWide .start (n.toUInt8 :: seen) rest
        | some left => takeUri? isWide (.octet left) (n.toUInt8 :: seen) rest

/-- Octets count up to the first that is zero. -/
def cutAtZero (bytes : Bytes) : Bytes := bytes.takeWhile (· != 0)

/-- Reads at least one character of a tag. -/
def takeSomeUri? (isWide : Bool) (cells : List Cell) : Option (Bytes × List Cell) := do
  let (bytes, rest) ← takeUri? isWide .start [] cells
  if bytes.isEmpty then none else return (cutAtZero bytes, rest)

/-- A tag as it is written; without a handle it is complete. -/
structure TagToken where
  handle : String := ""
  suffix : Bytes
  deriving DecidableEq

/-- Reads a tag behind its first exclamation mark, wherever that ends. -/
def takeTagText? (cells : List Cell) : Option (TagToken × List Cell) := do
  if nextChar cells = '<' then
    let (suffix, rest) ← takeSomeUri? true (cells.drop 1)
    if nextChar rest = '>' then return ({ suffix }, rest.drop 1) else none
  else
    let (word, rest) := takeWord cells
    if nextChar rest = '!' then
      let (suffix, rest) ← takeSomeUri? false (rest.drop 1)
      return ({ handle := "!" ++ String.ofList word ++ "!", suffix }, rest)
    else
      let (bytes, rest) ← takeUri? false .start [] rest
      let suffix := cutAtZero (Utf8.encode (String.ofList word) ++ bytes)
      if suffix.isEmpty then return ({ suffix := Utf8.encode "!" }, rest)
      else return ({ handle := "!", suffix }, rest)

/-- Reads a tag behind its first exclamation mark. -/
def takeTag? (isFlow : Bool) (cells : List Cell) : Option (TagToken × List Cell) := do
  let (tag, rest) ← takeTagText? cells
  if endsWord (nextChar rest) || (isFlow && nextChar rest = ',') then return (tag, rest) else none

end WordAsm.Yaml
