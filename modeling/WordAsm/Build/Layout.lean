/-
# Layout

The nodes of a unit are laid out one after the other from the end of the unit
before. An origin ahead of all code moves the start of the unit; a later one
leaves a gap. Labels get their addresses on the way, and an operand whose value
is known and small by then goes into the instruction word.

Addresses run in `Nat` here, since a unit may end at 0x10000.
-/
import WordAsm.Build.Build
import WordAsm.Symbols.Evaluation

namespace WordAsm

/-- One past the highest address. -/
def memoryEnd : Nat := 0x10000

def toAddress? (n : Nat) : Option Address :=
  if n < memoryEnd then some (UInt16.ofNat n) else none

/-- The state between two nodes. -/
structure Layout where
  symbols : Table
  /-- Where the unit starts, as far as that is known. -/
  start : Nat
  /-- Where the next word goes. -/
  address : Nat
  /-- Whether there has been any code. -/
  emitted : Bool := false
  markers : List Marker := []

namespace Layout

def error (l : Layout) (node : Node) (message : String) : Layout :=
  { l with markers := l.markers ++ [(Marker.error message).located node.location] }

def moveTo (l : Layout) (node : Node) (e : Expr) (value : Option Int64) : Layout :=
  match value with
  | none => l.error node s!"Origin `{e.text}` has no value"
  | some v =>
    let target := v.toInt.toNat
    if v.toInt < 0 ∨ memoryEnd ≤ v.toInt then l.error node s!"Origin {v.toInt} is out of range"
    else if !l.emitted then { l with start := target, address := target }
    else if target < l.address then
      l.error node ("Origin " ++ hexPrefixed target ++ " is behind the current address "
        ++ hexPrefixed l.address)
    else { l with address := target }

end Layout

/-- Whether a value fits into an instruction word. -/
def fitsInline (v : Int64) : Bool := 0 ≤ v.toInt && v.toInt ≤ Operand.inlineMax

/-- The size of a statement in words, and whether its operand is inlined. -/
def measure (inlining : Bool) (eval : Expr → Option Int64) : Statement → Word × Bool
  | .instruction _ _ (some (.expr e)) =>
    if inlining && (eval e).any fitsInline then (1, true) else (2, false)
  | .instruction _ _ _ => (1, false)
  | .words es => (UInt16.ofNat es.length, false)
  | _ => (0, false)

def Statement.isLabel : Statement → Bool
  | label _ => true
  | _ => false

/-- Whether a node has a place in memory. -/
def Node.isPlaced (n : Node) : Bool := n.size != 0 || n.statement.isLabel

def assignLabel (t : Table) (node : Node) (address : Address) : Table :=
  match node.statement.isLabel, node.symbol with
  | true, some id => t.modify id (·.withAddress (some address))
  | _, _ => t

/-- Lays out one node. Nothing comes back when the memory is full. -/
def layNode (unit : UnitId) (inlining : Bool) (l : Layout) (node : Node) : Node × Layout × Bool :=
  let here := toAddress? l.address
  let eval := l.symbols.eval { unit, scope := node.scope, current := here }
  match node.statement with
  | .origin e =>
    let l := l.moveTo node e (eval e)
    ({ node with address := toAddress? l.address }, l, true)
  | statement =>
    let (size, inlined) := measure inlining eval statement
    let node := { node with size, inlined }
    if !node.isPlaced then (node, l, true)
    else
      match here with
      | some address =>
        if l.address + size.toNat ≤ memoryEnd then
          ({ node with address := some address },
            { l with
              symbols := assignLabel l.symbols node address
              emitted := l.emitted || size != 0
              address := l.address + size.toNat }, true)
        else (node, l.error node "Code runs past the end of memory", false)
      | none => (node, l.error node "Code runs past the end of memory", false)

/-- Lays out nodes until the memory is full; the rest stays as it is. -/
def layNodes (unit : UnitId) (inlining : Bool) : SyntaxTree → Layout → SyntaxTree × Layout
  | [], l => ([], l)
  | node :: nodes, l =>
    match layNode unit inlining l node with
    | (node, l, true) =>
      let (nodes, l) := layNodes unit inlining nodes l
      (node :: nodes, l)
    | (node, l, false) => (node :: nodes, l)

/-- Where the nearest unit ahead of `unit` ended that has been laid out. -/
def previousEnd (units : Units) (unit : UnitId) : Nat :=
  let ahead := units.order.takeWhile (· ≠ unit)
  (ahead.reverse.findSome? fun id => (units.get? id).bind SourceUnit.stop).getD 0

def startAddress (start : Nat) : Address := (toAddress? start).getD 0xFFFF

def layUnit (cfg : Settings) (unit : SourceUnit) (tree : SyntaxTree) (b : Build) : Build :=
  let start := previousEnd b.units unit.id
  let (nodes, l) := layNodes unit.id (!cfg.switches.has .disableInlining) tree
    { symbols := b.symbols, start, address := start }
  let program := { b.program with symbols := l.symbols }.modifyUnit unit.id fun u =>
    { u.markAll l.markers with
      tree := some nodes
      start := startAddress l.start
      stop := some l.address }
  { b with program }.say .debug
    (unit.identifier ++ ": " ++ hexPrefixed l.start ++ ".." ++ hexPrefixed l.address)

def layoutPhase : Phase where
  name := "resolve-addresses"
  run cfg unit b :=
    withTree unit b fun tree => (.ok (), layUnit cfg unit tree b)

end WordAsm
