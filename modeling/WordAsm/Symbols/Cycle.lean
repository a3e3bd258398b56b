/-
# Circular equations

A depth-first search over the references between equations. When the search
meets an equation on its own path, the equations from there on form a cycle:
each of them loses its expression and gets a marker that names the cycle from
that equation round to it. Such an equation is poisoned, and later searches
pass over it.
-/
import WordAsm.Log
import WordAsm.Source.Marker
import WordAsm.Symbols.Table

namespace WordAsm

/-- The equations that an equation refers to, in source order. Nothing that is
not an equation with an expression has references. -/
def Table.references? (t : Table) (id : SymbolId) : Option (List SymbolId) :=
  match t.symbol? id with
  | some { unit, kind := .equation (some e) context, .. } =>
    some ((e.identifiers.filterMap fun name => t.resolve unit name context).filter fun next =>
      (t.symbol? next).any Symbol.isEquation)
  | _ => none

structure CycleSearch where
  table : Table
  poisoned : List SymbolId
  /-- Equations that this search is finished with. -/
  done : List SymbolId := []
  /-- What was found, with the unit it concerns. -/
  markers : List (UnitId × Marker) := []

namespace CycleSearch

def cycleText (names : List String) (i : Nat) : String :=
  "Circular equation: " ++ String.intercalate " <-> " (names.drop i ++ names.take (i + 1))

def poisonMember (names : List String) (s : CycleSearch) (member : SymbolId × Nat) : CycleSearch :=
  let (id, i) := member
  if id ∈ s.poisoned then s
  else
    let poisoned := { s with poisoned := id :: s.poisoned }
    match s.table.symbol? id with
    | none => poisoned
    | some symbol =>
      let marker := (Marker.error (cycleText names i)).located symbol.location
      { poisoned with
        table := s.table.modify id .withoutExpr
        markers := s.markers ++ [(symbol.unit, marker)] }

def poison (s : CycleSearch) (cycle : List SymbolId) : CycleSearch :=
  let names := cycle.filterMap fun id => (s.table.symbol? id).map Symbol.name
  cycle.zipIdx.foldl (poisonMember names) s

/-- Follows the references of `id`, which is reached along `path`. Only
equations in `remaining`, those that are not on the path, are entered. -/
def visit (remaining path : List SymbolId) (id : SymbolId) (s : CycleSearch) : CycleSearch :=
  if id ∈ s.poisoned ∨ id ∈ s.done then s
  else if id ∈ path then s.poison (path.dropWhile (· ≠ id))
  else
    match s.table.references? id with
    | none => s
    | some references =>
      if _h : id ∈ remaining then
        let after := references.foldl (fun s next =>
          if id ∈ s.poisoned then s
          else s.visit (without remaining id) (path ++ [id]) next) s
        { after with done := id :: after.done }
      else s
termination_by remaining.length
decreasing_by
  exact length_without_lt _h

def checkUnit (table : Table) (poisoned : List SymbolId) (unit : UnitId) : CycleSearch :=
  let roots : List SymbolId := match table.store? unit with
    | some store => (store.ordered.filter fun entry => entry.2.isEquation).map Prod.fst
    | none => []
  roots.foldl (fun s root => s.visit table.handles [] root) { table, poisoned }

/-- What a search says about its work. -/
def log (s : CycleSearch) : List LogLine :=
  s.markers.map fun (_, marker) => ⟨.debug, marker.message⟩

end CycleSearch

end WordAsm
