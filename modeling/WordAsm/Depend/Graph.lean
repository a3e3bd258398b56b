/-
# Dependency graphs

Which unit includes which. Nodes and edges keep the order in which they were
added. A unit is worked on after the units it includes, as far as circular
includes allow that: `linearize` lists what a unit reaches in post-order.
-/
import WordAsm.Program.SourceUnit

namespace WordAsm

structure DependencyNode where
  unit : UnitId
  /-- The units it includes. -/
  dependencies : List UnitId := []
  /-- The units that include it. -/
  dependents : List UnitId := []
  /-- The address where the source says it starts. -/
  start : Address := 0
  deriving DecidableEq

structure Graph where
  nodes : List DependencyNode := []
  deriving DecidableEq

namespace Graph

def node? (g : Graph) (unit : UnitId) : Option DependencyNode :=
  g.nodes.find? (·.unit == unit)

def units (g : Graph) : List UnitId := g.nodes.map DependencyNode.unit

def addNode (g : Graph) (unit : UnitId) : Graph :=
  if unit ∈ g.units then g else { nodes := g.nodes ++ [{ unit }] }

def modify (g : Graph) (unit : UnitId) (f : DependencyNode → DependencyNode) :
    Graph :=
  { nodes := g.nodes.map fun n => if n.unit = unit then f n else n }

def setStart (g : Graph) (unit : UnitId) (start : Address) : Graph :=
  (g.addNode unit).modify unit fun n => { n with start }

/-- Notes that `unit` includes `on`; nodes that are missing are added. -/
def addDependency (g : Graph) (unit on : UnitId) : Graph :=
  let g := (g.addNode unit).modify unit fun n =>
    { n with dependencies := insertNew n.dependencies on }
  (g.addNode on).modify on fun n => { n with dependents := insertNew n.dependents unit }

def dependencies (g : Graph) (unit : UnitId) : List UnitId :=
  match g.node? unit with
  | some n => n.dependencies
  | none => []

def startOf (g : Graph) (unit : UnitId) : Address :=
  match g.node? unit with
  | some n => n.start
  | none => 0

def roots (g : Graph) : List UnitId :=
  (g.nodes.filter (·.dependents.isEmpty)).map DependencyNode.unit

/-- A walk through the graph: the units it has come to, and those it has left. -/
structure Walk where
  visited : List UnitId := []
  order : List UnitId := []
  deriving DecidableEq

/-- Comes to a unit, walks on to its dependencies, and leaves it. Only units in
`remaining` have their dependencies visited. -/
def visit (g : Graph) (remaining : List UnitId) (unit : UnitId) (w : Walk) : Walk :=
  if unit ∈ w.visited then w
  else
    let entered := { w with visited := unit :: w.visited }
    let after :=
      if _h : unit ∈ remaining then
        (g.dependencies unit).foldl (fun w next => g.visit (without remaining unit) next w) entered
      else entered
    { after with order := after.order ++ [unit] }
termination_by remaining.length
decreasing_by
  exact length_without_lt _h

/-- The units reached from `roots`, dependencies before dependents, each once. -/
def linearizeAll (g : Graph) (roots : List UnitId) : List UnitId :=
  (roots.foldl (fun w root => g.visit g.units root w) {}).order

def linearize (g : Graph) (root : UnitId) : List UnitId := g.linearizeAll [root]

/-- Whether `unit` is reached from `pending`, by way of `remaining`. -/
def reaches (g : Graph) (unit : UnitId) (remaining pending : List UnitId) : Bool :=
  match pending with
  | [] => false
  | current :: pending =>
    if current = unit then true
    else if _h : current ∈ remaining then
      g.reaches unit (without remaining current) (g.dependencies current ++ pending)
    else g.reaches unit remaining pending
termination_by (remaining.length, pending.length)
decreasing_by
  · exact Prod.Lex.left _ _ (length_without_lt _h)
  · exact Prod.Lex.right _ (by simp)

/-- Whether `unit` is `root` or is included by it, directly or not. -/
def contains (g : Graph) (root unit : UnitId) : Bool :=
  g.reaches unit g.units [root]

end Graph

end WordAsm
