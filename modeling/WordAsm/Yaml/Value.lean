/-
# Values of YAML

A value is a scalar, a sequence or a mapping, or repeats another by its anchor.
Names of anchors are numbered by how many there are when they are set. One that
is set again has the next number but does not count again, so two names can
come to share a number; the node that started last has it.
-/
import WordAsm.Yaml.Token

namespace WordAsm.Yaml

inductive Value
  | scalar (tag : Option Bytes) (form : Form) (text : String)
  | sequence (items : List Value)
  | mapping (entries : List (Value × Value))
  | reference (number : Nat)

/-- Where nothing is written. -/
def Value.empty : Value := .scalar none .plain ""

structure Anchors where
  /-- The number that each name has now. -/
  numbers : List (String × Nat) := []
  /-- The numbers of the nodes with an anchor, in the order they started, last
  first. -/
  started : List Nat := []
  /-- The nodes that have ended, by their places among those that started. -/
  ended : List (Nat × Value) := []

namespace Anchors

/-- Starts a node with an anchor; its place is the number of those before it. -/
def start (a : Anchors) (name : String) : Anchors :=
  let number := a.numbers.length
  { a with
    numbers := (name, number) :: a.numbers.filter (·.1 != name), started := number :: a.started }

def finish (a : Anchors) (place : Nat) (value : Value) : Anchors :=
  { a with ended := (place, value) :: a.ended }

def target? (a : Anchors) (number : Nat) : Option Value := do
  let i ← a.started.findIdx? (· = number)
  a.ended.lookup (a.started.length - 1 - i)

end Anchors

end WordAsm.Yaml
