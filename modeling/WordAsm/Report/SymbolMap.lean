/-
# Symbol maps

All symbols of a program by name, a local one under the name of its global
followed by its own. Keys are in ascending order; where two symbols have the
same key, the later one counts.
-/
import WordAsm.Program.Program
import WordAsm.Symbols.Evaluation
import WordAsm.Yaml.Writer

namespace WordAsm

inductive SymbolClass
  | label
  | equation
  | macroDef
  deriving DecidableEq

namespace SymbolClass

def name : SymbolClass → String
  | label => "label"
  | equation => "equation"
  | macroDef => "macro"

def ofKind : SymbolKind → SymbolClass
  | .label _ => label
  | .equation _ _ => equation
  | .macroDef _ => macroDef

end SymbolClass

structure SymbolMapEntry where
  kind : SymbolClass
  /-- The identifier of the unit that defines the symbol. -/
  unit : String
  value : Option Int64
  deriving DecidableEq

def insertKey {α : Type} (key : String) (a : α) : List (String × α) → List (String × α)
  | [] => [(key, a)]
  | entry :: rest =>
    if key < entry.1 then (key, a) :: entry :: rest
    else if key = entry.1 then (key, a) :: rest
    else entry :: insertKey key a rest

def mapKey (t : Table) (symbol : Symbol) : String :=
  match symbol.scope.bind t.symbol? with
  | some scope => scope.name ++ symbol.name
  | none => symbol.name

def mapEntry (p : Program) (store : Store) (id : SymbolId) (symbol : Symbol) :
    SymbolMapEntry where
  kind := .ofKind symbol.kind
  unit := ((p.get? store.unit).map SourceUnit.identifier).getD ""
  value := p.symbols.value? id

def symbolMap (p : Program) : List (String × SymbolMapEntry) :=
  let entries := p.symbols.stores.flatMap fun store => store.ordered.map fun (id, symbol) =>
    (mapKey p.symbols symbol, mapEntry p store id symbol)
  entries.foldl (fun map (key, entry) => insertKey key entry map) []

/-- An entry as a record; a symbol without a value has no such field. -/
def SymbolMapEntry.record (e : SymbolMapEntry) : Yaml.Record :=
  [("class", e.kind.name), ("unit", Yaml.scalarText false 4 e.unit)]
    ++ (e.value.map fun v => ("value", toString v.toInt)).toList

def symbolMapYaml (p : Program) : String :=
  Yaml.writeMap ((symbolMap p).map fun (key, entry) => (key, entry.record))

end WordAsm
