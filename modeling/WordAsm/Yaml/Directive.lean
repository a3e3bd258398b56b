/-
# Directives

A line that starts with a percent sign says something about the document below
it: the version of YAML it is written in, or what a handle of its tags stands
for.
-/
import WordAsm.Yaml.Property
import WordAsm.Yaml.Scalar

namespace WordAsm.Yaml

inductive Directive
  | version (major minor : Nat)
  | handle (name : String) (start : Bytes)
  deriving DecidableEq

/-- Reads a part of a version. -/
def takeNumber? (cells : List Cell) : Option (Nat × List Cell) := do
  let digits := (cells.takeWhile fun c => isDecimal c.char).map Cell.char
  let n ← digitsValue? 10 digits
  if digits.length ≤ 9 then return (n, cells.drop digits.length) else none

def takeVersion? (cells : List Cell) : Option (Directive × List Cell) := do
  let (major, rest) ← takeNumber? (skipGaps cells)
  if nextChar rest = '.' then
    let (minor, rest) ← takeNumber? (rest.drop 1)
    return (.version major minor, rest)
  else none

def takeHandle? (cells : List Cell) : Option (String × List Cell) :=
  let (word, rest) := takeWord (cells.drop 1)
  if nextChar cells != '!' then none
  else if nextChar rest = '!' then some ("!" ++ String.ofList word ++ "!", rest.drop 1)
  else if word.isEmpty then some ("!", rest)
  else none

def takeHandleMeaning? (cells : List Cell) : Option (Directive × List Cell) := do
  let (name, rest) ← takeHandle? (skipGaps cells)
  if isGap (nextChar rest) then
    let (start, rest) ← takeSomeUri? true (skipGaps rest)
    if endsWord (nextChar rest) then return (.handle name start, rest) else none
  else none

/-- Reads a directive behind its percent sign, with the rest of its line. -/
def takeDirective? (cells : List Cell) : Option (Directive × List Cell) := do
  let (word, rest) := takeWord cells
  if !endsWord (nextChar rest) then none
  else
    let (directive, rest) ←
      match String.ofList word with
      | "YAML" => takeVersion? rest
      | "TAG" => takeHandleMeaning? rest
      | _ => none
    return (directive, ← restOfLine? rest)

end WordAsm.Yaml
