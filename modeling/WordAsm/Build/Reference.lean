/-
# References

Every name in an expression must be a label or an equation, and equations must
not be circular. Circular equations are found first, since nothing may be
evaluated before.
-/
import WordAsm.Build.Build
import WordAsm.Symbols.Cycle

namespace WordAsm

/-- What is wrong with a name in an expression, if anything. -/
def nameProblem? (t : Table) (unit : UnitId) (scope : Option SymbolId) (name : String) :
    Option String :=
  match (t.resolve unit name scope).bind t.symbol? with
  | none => some s!"Unknown symbol `{name}`"
  | some symbol =>
    if symbol.isMacro then some s!"Macro `{name}` cannot be used as a value" else none

def nodeProblems (t : Table) (unit : UnitId) (node : Node) : List Marker :=
  (node.statement.exprs.flatMap Expr.identifiers).filterMap fun name =>
    (nameProblem? t unit node.scope name).map fun problem =>
      (Marker.error problem).located node.location

def referenceProblems (t : Table) (unit : UnitId) (tree : SyntaxTree) : List Marker :=
  tree.flatMap (nodeProblems t unit)

/-- Attaches what a search found to the units it concerns, up to the first one
that is unknown. -/
def markOwners (p : Program) : List (UnitId × Marker) → Except Error Unit × Program
  | [] => (.ok (), p)
  | (owner, marker) :: rest =>
    match p.get owner with
    | .error e => (.error e, p)
    | .ok _ => markOwners (p.mark owner [marker]) rest

/-- Clears the circular equations that a unit leads to, and marks them in the
units that define them. -/
def checkCycles (unit : UnitId) (b : Build) : Except Error Unit × Build :=
  let search := CycleSearch.checkUnit b.symbols b.poisoned unit
  let (outcome, program) := markOwners { b.program with symbols := search.table } search.markers
  (outcome, { b with program, poisoned := search.poisoned }.sayAll search.log)

def referencePhase : Phase where
  name := "validate-references"
  run _ unit b :=
    match checkCycles unit.id b with
    | (.error e, b) => (.error e, b)
    | (.ok (), b) =>
      withTree unit b fun tree =>
        (.ok (), b.mark unit.id (referenceProblems b.symbols unit.id tree))

end WordAsm
