/-
# Listings

A listing shows the nodes of a unit with their addresses and words. An
instruction is shown as its words read back; everything else as in the source.
-/
import WordAsm.Program.SourceUnit
import WordAsm.Text.Blank
import WordAsm.Text.Lines

namespace WordAsm

/-- A text filled up with blanks to a least width. -/
def padRight (width : Nat) (s : String) : String :=
  s ++ String.ofList (List.replicate (width - s.length) ' ')

def wordsAt (words : List Word) (offset count : Nat) : List Word :=
  if offset + count ≤ words.length then (words.drop offset).take count else []

/-- The words of some object code; a byte left over is the upper half of one. -/
def listedWords (bytes : Bytes) : List Word :=
  match wordsOfBytes bytes with
  | (words, none) => words
  | (words, some b) => words ++ [Word.ofBytes b 0]

def listedText (raw : String) (words : List Word) : Statement → String
  | .instruction _ _ _ =>
    match Instruction.decode words with
    | .ok (instruction, _) => instruction.coloured
    | .error _ => raw
  | _ => raw

def listingLine (start : Address) (words : List Word) (source : List String) (node : Node) :
    String :=
  let raw := String.ofList (trim ((source[node.location.line]?).getD "").toList)
  match node.address with
  | none => "     |           | " ++ raw
  | some address =>
    let emitted := wordsAt words (address - start).toNat node.size.toNat
    let shown := String.intercalate " " (emitted.map fun w => hexWord w.toNat)
    Colour.green.paint (hexWord address.toNat) ++ " | " ++ padRight 9 shown ++ " | "
      ++ listedText raw emitted node.statement

/-- The listing of a unit; nothing for a unit without a syntax tree. -/
def listing (tree : FileTree) (unit : SourceUnit) : Except Error (List String) := do
  let source ← unit.resource.readText tree
  match unit.tree with
  | none => return []
  | some nodes =>
    let bytes ← match unit.code with
      | some code => code.resource.readBytes tree
      | none => pure []
    let lines := nodes.map (listingLine unit.start (listedWords bytes) (reportLines source))
    return lines ++ ["-----+-----------+--------------------------------------------"]

end WordAsm
