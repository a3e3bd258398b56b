/-
# Source units

A unit is one source with everything that assembling it produced: its syntax
tree, the markers on it, its place in memory and its object code. Markers are
numbered from 1 in the order in which they are attached, and a number is never
used again for the same unit.
-/
import WordAsm.Object.Code
import WordAsm.Object.Relocation
import WordAsm.Source.Marker
import WordAsm.Source.Statement

namespace WordAsm

def insertNew {α : Type} [DecidableEq α] (xs : List α) (a : α) : List α :=
  if a ∈ xs then xs else xs ++ [a]

structure SourceUnit where
  id : UnitId
  resource : Resource
  tree : Option SyntaxTree := none
  /-- The markers, by number. -/
  markers : List Marker := []
  /-- The number of the next marker. -/
  nextMarker : Nat := 1
  start : Address := 0
  /-- One past the last word, once that is known; at most 0x10000. -/
  stop : Option Nat := none
  relocation : RelocationTable := .empty
  /-- The units it includes, by first occurrence. -/
  dependencies : List UnitId := []
  code : Option ObjectCode := none
  /-- The source line of each address that has code. -/
  lines : List (Address × Nat) := []
  deriving DecidableEq

namespace SourceUnit

def identifier (u : SourceUnit) : String := u.resource.identifier

/-- The unit as it was before anything was done with it. Marker numbers go on. -/
def reset (u : SourceUnit) : SourceUnit :=
  { id := u.id, resource := u.resource, nextMarker := u.nextMarker }

def mark (u : SourceUnit) (m : Marker) : SourceUnit :=
  { u with
    markers := u.markers ++ [{ m with id := u.nextMarker }]
    nextMarker := u.nextMarker + 1 }

def markAll (u : SourceUnit) (ms : List Marker) : SourceUnit := ms.foldl mark u

def unmark (u : SourceUnit) (number : Nat) : SourceUnit :=
  { u with markers := u.markers.filter (·.id != number) }

def hasMarker (u : SourceUnit) (number : Nat) : Bool := u.markers.any (·.id == number)

def markersOf (u : SourceUnit) : Option MarkerKind → List Marker
  | some kind => u.markers.filter (·.kind == kind)
  | none => u.markers

def hasErrors (u : SourceUnit) : Bool := u.markers.any Marker.isError

def addDependency (u : SourceUnit) (on : UnitId) : SourceUnit :=
  { u with dependencies := insertNew u.dependencies on }

/-- Notes the source line of an address; a later note replaces an earlier one
in its place. -/
def noteLine (lines : List (Address × Nat)) (address : Address) (line : Nat) :
    List (Address × Nat) :=
  if lines.any (·.1 == address) then
    lines.map fun entry => if entry.1 == address then (address, line) else entry
  else lines ++ [(address, line)]

def addLine (u : SourceUnit) (address : Address) (line : Nat) : SourceUnit :=
  { u with lines := noteLine u.lines address line }

def addRelocation (u : SourceUnit) (address : Address) : SourceUnit :=
  { u with relocation := u.relocation.insert address }

end SourceUnit

end WordAsm
