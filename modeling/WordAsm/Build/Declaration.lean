/-
# Declarations

The first phase reads the source of a unit, defines the symbols that its
statements declare, and queues the units that they include. Every node gets
the global label in effect as its scope.
-/
import WordAsm.Build.Build
import WordAsm.Source.Parser

namespace WordAsm

/-- The state between two nodes of the unit `unit`. -/
structure Declaring extends program : Program where
  unit : UnitId
  /-- The global label in effect. -/
  scope : Option SymbolId := none
  log : List LogLine := []

/-- What the source did wrong when a symbol was refused; nothing if the refusal
is no fault of the source. -/
def refusal? (p : Program) : Error → Option String
  | .duplicateSymbol name =>
    let first := (p.symbols.getAll name).head?.bind fun s => (p.get? s.unit).map (·, s)
    match first with
    | some (unit, symbol) =>
      some s!"Duplicate symbol `{name}`, first defined at {unit.identifier}:{symbol.location.text}"
    | none => some s!"Duplicate symbol `{name}`"
  | .invalidScope name => some s!"Invalid scope for `{name}`"
  | _ => none

namespace Declaring

def mark (d : Declaring) (node : Node) (marker : Marker) : Declaring :=
  { d with program := d.program.mark d.unit [marker.located node.location] }

/-- Defines the symbol of a node. A global label is the scope from here on. -/
def define (d : Declaring) (node : Node) (symbol : Symbol) : Except Error Node × Declaring :=
  let (outcome, symbols) := d.symbols.define symbol
  let d := { d with symbols }
  match outcome with
  | .ok id =>
    let scope := if symbol.isGlobal && symbol.isLabel then some id else d.scope
    (.ok { node with symbol := some id }, { d with scope })
  | .error e =>
    match refusal? d.program e with
    | some message => (.ok node, d.mark node (.error message))
    | none => (.error e, d)

/-- Queues the unit that an include refers to. -/
def follow (cfg : Settings) (tree : FileTree) (parent : Resource) (d : Declaring)
    (node : Node) (path : String) : Node × Declaring :=
  if cfg.switches.has .ignoreIncludes then
    (node, d.mark node (.warning s!"Include of `{path}` ignored"))
  else
    match cfg.resolver.resolve tree path (some parent) with
    | .error e => (node, d.mark node (.error e.message))
    | .ok resource =>
      if resource.same tree parent then
        (node, d.mark node (.error s!"`{path}` includes itself"))
      else
        let (target, units) := d.findOrAdd tree resource
        let program := { d.program with units }.modifyUnit d.unit (·.addDependency target)
        let line : LogLine := ⟨.debug, parent.identifier ++ " includes " ++ unitTag target⟩
        ({ node with included := some target }, { d with program, log := d.log ++ [line] })

end Declaring

def declareNode (cfg : Settings) (tree : FileTree) (parent : Resource) (d : Declaring)
    (node : Node) : Except Error Node × Declaring :=
  let node := { node with scope := d.scope }
  match node.statement with
  | .label name =>
    let symbol := Symbol.label name d.unit node.location
    if isLocalName name then
      match d.scope with
      | some scope => d.define node { symbol with scope := some scope }
      | none =>
        (.ok node, d.mark node (.error s!"Local label `{name}` has no enclosing global label"))
    else d.define node symbol
  | .equation name e => d.define node (.equation name d.unit node.location e d.scope)
  | .macroDef name _ => d.define node (.macroDef name d.unit node.location node.id)
  | .includes path =>
    let (node, d) := d.follow cfg tree parent node path
    (.ok node, d)
  | _ => (.ok node, d)

def declareNodes (cfg : Settings) (tree : FileTree) (parent : Resource) :
    SyntaxTree → Declaring → Except Error SyntaxTree × Declaring
  | [], d => (.ok [], d)
  | node :: nodes, d =>
    match declareNode cfg tree parent d node with
    | (.error e, d) => (.error e, d)
    | (.ok node, d) =>
      match declareNodes cfg tree parent nodes d with
      | (.error e, d) => (.error e, d)
      | (.ok nodes, d) => (.ok (node :: nodes), d)

def declareUnit (cfg : Settings) (unit : SourceUnit) (parsed : SyntaxTree × List Marker)
    (b : Build) : Except Error Unit × Build :=
  let (nodes, markers) := parsed
  let b := (b.say .debug s!"{unit.identifier}: {nodes.length} node(s)").mark unit.id markers
  let (outcome, d) := declareNodes cfg b.tree unit.resource nodes
    { unit := unit.id, program := b.program }
  let b := { b with program := d.program }.sayAll d.log
  match outcome with
  | .error e => (.error e, b)
  | .ok nodes => (.ok (), b.modifyUnit unit.id fun u => { u with tree := some nodes })

def parseUnit (cfg : Settings) (unit : SourceUnit) (b : Build) : Except Error Unit × Build :=
  match unit.resource.readText b.tree with
  | .error e => (.ok (), b.mark unit.id [.error e.message])
  | .ok text => declareUnit cfg unit (parseSource cfg.switches text) b

def parsePhase : Phase where
  name := "parse"
  run := parseUnit

end WordAsm
