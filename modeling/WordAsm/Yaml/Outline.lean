/-
# Outlines

What is known of the form of a text while it is read: the tokens so far, the
indentations of the collections that are open, and what may still turn out to
be a key. A key is only known by the colon behind it, and then the token that
marks it, and perhaps the start of a mapping, go in front of it.
-/
import WordAsm.Yaml.Token

namespace WordAsm.Yaml

/-- A place where a key may have started. -/
structure PendingKey where
  /-- The number of tokens in front. -/
  token : Nat
  line : Nat
  column : Nat
  /-- Whether nothing but a key can be there. -/
  isRequired : Bool
  deriving DecidableEq

/-- How far the colon may be from the start of a key. -/
def keyLimit : Nat := 1024

/-- A key ends on the line where it started, and not too far from there. -/
def PendingKey.isStale (k : PendingKey) (now : Cell) : Bool :=
  k.line < now.line || k.column + keyLimit < now.column

structure Outline where
  tokens : Array Token := #[]
  key : Option PendingKey := none
  /-- The keys around each pair of brackets that is open, innermost first. -/
  outer : List (Option PendingKey) := []
  /-- The indentations of what is open outside brackets, innermost first. -/
  indents : List Nat := []
  /-- Whether a key may start here. -/
  mayKey : Bool := true
  deriving DecidableEq

namespace Outline

/-- Whether brackets are open. -/
def isFlow (o : Outline) : Bool := !o.outer.isEmpty

def push (o : Outline) (t : Token) : Outline := { o with tokens := o.tokens.push t }

def insert (o : Outline) (n : Nat) (t : Token) : Outline :=
  { o with tokens := o.tokens.insertIdxIfInBounds n t }

def dropKey? (o : Outline) : Option Outline :=
  if o.key.any PendingKey.isRequired then none else some { o with key := none }

def saveKey? (o : Outline) (now : Cell) : Option Outline :=
  if o.mayKey then
    o.dropKey?.map fun o =>
      let key : PendingKey :=
        { token := o.tokens.size, line := now.line, column := now.column,
          isRequired := !o.isFlow && o.indents.head? = some now.column }
      { o with key := some key }
  else some o

/-- Opens a collection at a column deeper than all that is open, with its
token behind the first `n`. -/
def roll (o : Outline) (column n : Nat) (start : Token) : Outline :=
  if !o.isFlow && o.indents.head?.all (· < column) then
    { o.insert n start with indents := column :: o.indents }
  else o

/-- Ends the collections for which `p` holds of the indentation, up to the
first for which it does not. -/
def unroll (o : Outline) (p : Nat → Bool) : Outline :=
  if o.isFlow then o
  else
    { o with
      tokens := o.tokens ++ (o.indents.takeWhile p).map fun _ => Token.blockEnd,
      indents := o.indents.dropWhile p }

def unrollAll (o : Outline) : Outline := o.unroll fun _ => true

def keep? (now : Cell) : Option PendingKey → Option (Option PendingKey)
  | none => some none
  | some k => if !k.isStale now then some (some k) else if k.isRequired then none else some none

/-- Gives up all keys that cannot end here any more. -/
def expire? (o : Outline) (now : Cell) : Option Outline := do
  return { o with key := ← keep? now o.key, outer := ← o.outer.mapM (keep? now) }

def openFlow? (o : Outline) (now : Cell) (start : Token) : Option Outline :=
  (o.saveKey? now).map fun o =>
    { o with outer := o.key :: o.outer, key := none, mayKey := true }.push start

/-- Closes the innermost brackets. -/
def closeFlow? (o : Outline) (stop : Token) : Option Outline :=
  o.dropKey?.map fun o =>
    { o with key := o.outer.head?.join, outer := o.outer.tail, mayKey := false }.push stop

/-- A comma between brackets. -/
def flowEntry? (o : Outline) : Option Outline :=
  o.dropKey?.map fun o => { o with mayKey := true }.push .flowEntry

/-- The dash of an item. -/
def blockEntry? (o : Outline) (now : Cell) : Option Outline :=
  if !o.isFlow && !o.mayKey then none
  else
    (o.roll now.column o.tokens.size .blockSequenceStart).dropKey?.map fun o =>
      { o with mayKey := true }.push .blockEntry

def markedKey? (o : Outline) (now : Cell) : Option Outline :=
  if !o.isFlow && !o.mayKey then none
  else
    (o.roll now.column o.tokens.size .blockMappingStart).dropKey?.map fun o =>
      { o with mayKey := !o.isFlow }.push .key

def value? (o : Outline) (now : Cell) : Option Outline :=
  match o.key with
  | some k =>
    let o := (o.insert k.token .key).roll k.column k.token .blockMappingStart
    some ({ o with key := none, mayKey := false }.push .value)
  | none =>
    if !o.isFlow && !o.mayKey then none
    else
      let o := o.roll now.column o.tokens.size .blockMappingStart
      some ({ o with mayKey := !o.isFlow }.push .value)

def documentToken? (o : Outline) (t : Token) : Option Outline :=
  o.unrollAll.dropKey?.map fun o => { o with mayKey := false }.push t

def keyToken? (o : Outline) (now : Cell) (t : Token) : Option Outline :=
  (o.saveKey? now).map fun o => { o with mayKey := false }.push t

end Outline

end WordAsm.Yaml
