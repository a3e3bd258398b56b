/-
# Diagnostics

A marker is printed with the source line it points at, and a row of carets
under the place.
-/
import WordAsm.Program.Units
import WordAsm.Text.Lines

namespace WordAsm

/-- A number filled up with blanks on the left. -/
def padLeft (width n : Nat) : String :=
  let digits := toString n
  String.ofList (List.replicate (width - digits.length) ' ') ++ digits

/-- The row of carets under a place. -/
def carets (l : Location) : String :=
  String.ofList (List.replicate l.column ' ' ++ List.replicate (max l.length 1) '^')

def excerpt (source : Option (List String)) (l : Location) : List String :=
  match source.bind (·[l.line]?) with
  | none => []
  | some raw =>
    let bar := "      " ++ Colour.blue.paint "|"
    [bar, " " ++ Colour.blue.paint (padLeft 4 (l.line + 1) ++ " |") ++ " " ++ raw,
      bar ++ " " ++ Colour.red.paint (carets l)]

def markerLines (identifier : String) (source : Option (List String)) (m : Marker) : List String :=
  let pointer := "     " ++ Colour.blue.paint "-->" ++ " "
  match m.location with
  | none => [m.headline, pointer ++ underline identifier]
  | some l => [m.headline, pointer ++ underline (identifier ++ ":" ++ l.text)] ++ excerpt source l

def unitReport (tree : FileTree) (unit : SourceUnit) : List String :=
  let source := (unit.resource.readText tree).toOption.map reportLines
  unit.markers.flatMap (markerLines unit.identifier source)

/-- The markers of all queued units, and the number of errors among them. -/
def reportUnits (tree : FileTree) (units : Units) : List String × Nat :=
  (units.ordered.flatMap (unitReport tree),
    (units.ordered.flatMap fun unit => unit.markers.filter Marker.isError).length)

end WordAsm
