/-
# Discovery of includes

Before a program is assembled, its sources are searched for the sources they
include, and those for theirs. Sources that cannot be read and includes that
lead nowhere are passed over.

Every step takes a unit from the pile and a unit gets on it once, besides those
that were there from the start; so as many steps as there are queued units,
known units and sources to include are enough.
-/
import WordAsm.Depend.Order
import WordAsm.Files.Resolver
import WordAsm.Log
import WordAsm.Program.Program
import WordAsm.Source.Scan

namespace WordAsm

/-- How many sources includes can lead to. -/
def Resolver.reach (r : Resolver) (tree : FileTree) : Nat :=
  match r with
  | memory texts => texts.length
  | files _ => tree.files.length

structure Discovery extends units : Units where
  graph : Graph := {}
  /-- The pile of units to look into. -/
  pending : List UnitId
  /-- The units that have been on the pile. -/
  seen : List UnitId
  log : List LogLine := []

namespace Discovery

def debug (d : Discovery) (message : String) : Discovery :=
  { d with log := d.log ++ [⟨.debug, message⟩] }

def follow (resolver : Resolver) (tree : FileTree) (unit : SourceUnit) (d : Discovery)
    (path : String) : Discovery :=
  match resolver.resolve tree path (some unit.resource) with
  | .error e => d.debug (unit.identifier ++ ": " ++ e.message)
  | .ok resource =>
    let (target, units) := d.findOrAdd tree resource
    let d := { d with units }
    if target = unit.id then d
    else
      let d := { d with graph := d.graph.addDependency unit.id target }
      if target ∈ d.seen then d
      else { d with seen := target :: d.seen, pending := target :: d.pending }

def explore (resolver : Resolver) (tree : FileTree) (unit : SourceUnit) (d : Discovery) :
    Discovery :=
  match unit.resource.readText tree with
  | .error e =>
    { d with graph := d.graph.addNode unit.id }.debug
      s!"Skipping dependencies of {unit.identifier}: {e.message}"
  | .ok text =>
    let found := scanSource text
    let d := { d with graph := d.graph.setStart unit.id (found.origin.getD 0) }
    (found.includes.map (·.1)).foldl (follow resolver tree unit) d

/-- Looks into the units of the pile, at most `steps` times. -/
def run (resolver : Resolver) (tree : FileTree) :
    Nat → Discovery → Except Error Graph × Discovery
  | 0, d => (.ok d.graph, d)
  | steps + 1, d =>
    match d.pending with
    | [] => (.ok d.graph, d)
    | id :: pending =>
      match d.get? id with
      | none => (.error (.unknownUnit id), d)
      | some unit => run resolver tree steps ({ d with pending }.explore resolver tree unit)

end Discovery

/-- Finds all units that the queued ones bring in, and who includes whom. -/
def discover (resolver : Resolver) (tree : FileTree) (units : Units) :
    Except Error Graph × Discovery :=
  Discovery.run resolver tree (units.order.length + units.all.length + resolver.reach tree)
    { units, pending := units.order.reverse, seen := units.order }

def Program.orderUnits (p : Program) (resolver : Resolver) (tree : FileTree)
    (selector : RootSelector) : Except Error Unit × Program × List LogLine :=
  let (graph, d) := discover resolver tree p.units
  let ordered := do d.setOrder (← (← graph).order d.units tree selector)
  match ordered with
  | .ok units => (.ok (), { p with units }, d.log)
  | .error e => (.error e, { p with units := d.units }, d.log)

end WordAsm
