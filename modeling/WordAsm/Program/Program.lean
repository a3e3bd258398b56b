/-
# Programs

A program is its units with their symbols.
-/
import WordAsm.Program.Units
import WordAsm.Symbols.Table

namespace WordAsm

structure Program extends units : Units where
  symbols : Table := {}
  deriving DecidableEq

namespace Program

def hasErrors (p : Program) : Bool := p.units.hasErrors

/-- A program of the given sources, worked on in that order. -/
def ofResources (resources : List Resource) : Program :=
  { units := resources.foldl (fun us r => (us.add r).2) {} }

def modifyUnit (p : Program) (id : UnitId) (f : SourceUnit → SourceUnit) : Program :=
  { p with units := p.units.modify id f }

def mark (p : Program) (id : UnitId) (markers : List Marker) : Program :=
  p.modifyUnit id (·.markAll markers)

end Program

end WordAsm
